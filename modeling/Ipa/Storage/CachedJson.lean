import Ipa.Lib.Json.RoundTrip
import Ipa.Lib.Run
import Ipa.Storage.Cache

/-!
# Read-through caching

Calls of an async function that is wrapped with `cached_json`, in any interleaving, over one cache
store.  Entries may vanish at any moment, by expiry or deletion, or become undecodable; every request
may fail on its way, and one whose answer did not arrive may be executed at any later moment, or never
(`CachedStep`).

* `EntryOk`: what the store may hold under a key, part of the invariant (`CachedInv`).
* `cached_json_transparent`: a call returns the value of the function and raises only what `key_fn` or
  the function raises; a call without a key makes no request.
* `cached_json_not_transparent`: results that are not stored as they are make a call raise, or return
  another value.
-/

namespace Ipa

open KeyValue Transition

/-- What a function returns: a JSON value, or anything else that is no dictionary. -/
inductive Returned (O : Type*)
  | json (value : PyJson.Value)
  | other (o : O)

/-- `isinstance(value, dict)`. -/
def IsDict : PyJson.Value → Prop
  | .obj _ => True
  | _ => False

instance (value : PyJson.Value) : Decidable (IsDict value) := by
  cases value <;> unfold IsDict <;> infer_instance

/-- One wrapped call: what `key_fn` computes for its arguments, if it does not raise, and the value of
the function on them. -/
structure CachedCall (O : Type*) where
  key : Except Unit (Option String)
  value : Returned O

/-- What a call raises: what `key_fn`, the function or the cache store has raised. -/
inductive CallError
  | keyFn
  | fn
  | cache (e : CacheError)

/-- Where a call stands: before `key_fn`, before the cache is read, before the function runs, before
its result is written, or at its end. -/
inductive CachedPhase (O : Type*)
  | called
  | looking (key : String)
  | missed (key : Option String)
  | computed (key : String) (result : PyJson.Value)
  | returned (result : Returned O)
  | raised (e : CallError)

/-- The store, the requests that may still be executed, and the calls. -/
structure CachedState (C O : Type*) where
  store : RedisStore
  inFlight : List (String × Bytes)
  phase : C → CachedPhase O

/-- The steps of a call, a late request, and what others do to an entry. -/
inductive CachedEvent (C : Type*)
  | call (c : C)
  | get (c : C)
  | compute (c : C)
  | fail (c : C)
  | set (c : C)
  | late (key : String)
  | erase (key : String)
  | corrupt (key : String)
  | foreign (key : String)

/-- The call that an event is a step of. -/
def CachedEvent.call? {C : Type*} : CachedEvent C → Option C
  | call c | get c | compute c | fail c | set c => some c
  | _ => none

section

variable {C O : Type*}

/-- A call goes on when its key has been computed. -/
def afterKey : Except Unit (Option String) → CachedPhase O
  | .error () => .raised .keyFn
  | .ok none => .missed none
  | .ok (some key) => .looking key

/-- A call returns what the cache has, and goes on when it has nothing. -/
def afterGet (key : String) : Except CacheError (Option PyJson.Value) → CachedPhase O
  | .ok (some value) => .returned (.json value)
  | .ok none => .missed (some key)
  | .error e => .raised (.cache e)

/-- The result of the function is written if there is a key and it is a dictionary. -/
def afterFn : Option String → Returned O → CachedPhase O
  | some key, .json value => if IsDict value then .computed key value else .returned (.json value)
  | _, result => .returned result

/-- A call returns its result when it has been written. -/
def afterSet (value : PyJson.Value) : Except CacheError Unit → CachedPhase O
  | .ok () => .returned (.json value)
  | .error e => .raised (.cache e)

/-- The request to write an entry, if its answer did not arrive. -/
def unanswered (limits : PyJson.Limits) (key : String) (value : PyJson.Value) :
    Link → List (String × Bytes)
  | .up => []
  | .down _ _ | .lost _ _ =>
    match RedisCacheStore.encodeValue limits value with
    | .error _ => []
    | .ok raw => [(key, raw)]

variable [DecidableEq C] (limits : PyJson.Limits) (ttl : ℤ) (calls : C → CachedCall O)

/-- One request of one call, or a change of the store by others. -/
inductive CachedStep : CachedState C O → CachedEvent C → CachedState C O → Prop
  | call {s : CachedState C O} {c : C} (hcalled : s.phase c = .called) :
      CachedStep s (.call c)
        ⟨s.store, s.inFlight, Function.update s.phase c (afterKey (calls c).key)⟩
  | get {s : CachedState C O} {c : C} {key : String} (link : Link)
      (hlooking : s.phase c = .looking key) :
      CachedStep s (.get c) ⟨(RedisCacheStore.getJson limits link key s.store).1, s.inFlight,
        Function.update s.phase c (afterGet key (RedisCacheStore.getJson limits link key s.store).2)⟩
  | compute {s : CachedState C O} {c : C} {key : Option String} (hmissed : s.phase c = .missed key) :
      CachedStep s (.compute c)
        ⟨s.store, s.inFlight, Function.update s.phase c (afterFn key (calls c).value)⟩
  | fail {s : CachedState C O} {c : C} {key : Option String} (hmissed : s.phase c = .missed key) :
      CachedStep s (.fail c) ⟨s.store, s.inFlight, Function.update s.phase c (.raised .fn)⟩
  | set {s : CachedState C O} {c : C} {key : String} {value : PyJson.Value} (link : Link)
      (hcomputed : s.phase c = .computed key value) :
      CachedStep s (.set c) ⟨(RedisCacheStore.setJson limits link key value ttl s.store).1,
        s.inFlight ++ unanswered limits key value link,
        Function.update s.phase c
          (afterSet value (RedisCacheStore.setJson limits link key value ttl s.store).2)⟩
  | late {s : CachedState C O} {key : String} {raw : Bytes} (hlate : (key, raw) ∈ s.inFlight) :
      CachedStep s (.late key) ⟨(Redis.set key raw ttl s.store).1, s.inFlight, s.phase⟩
  /-- An expiry or a deletion. -/
  | erase {s : CachedState C O} {key : String} :
      CachedStep s (.erase key) ⟨erase key s.store, s.inFlight, s.phase⟩
  | corrupt {s : CachedState C O} {key : String} {raw : Bytes}
      (hraw : PyJson.loads limits raw = .error .value) :
      CachedStep s (.corrupt key) ⟨put key raw s.store, s.inFlight, s.phase⟩
  /-- Entries that no wrapped call has may be changed in any way. -/
  | foreign {s : CachedState C O} {key : String} {entry : Option Bytes}
      (hkey : ∀ c, (calls c).key ≠ .ok (some key)) :
      CachedStep s (.foreign key) ⟨Function.update s.store key entry, s.inFlight, s.phase⟩

/-- No call has started. -/
def CachedState.init (store : RedisStore) : CachedState C O := ⟨store, [], fun _ => .called⟩

end

/-! ## Values that are read back -/

section RoundTrip

variable {limits : PyJson.Limits} {value : PyJson.Value} {key : String} {link : Link} {ttl : ℤ}
  {s : RedisStore}

theorem encodeValue_storable (h : value.Storable limits.digits limits.depth) :
    ∃ raw, RedisCacheStore.encodeValue limits value = .ok raw ∧
      PyJson.loads limits raw = .ok value := by
  obtain ⟨text, raw, htext, hraw, hloads⟩ := PyJson.loads_dumps h
  refine ⟨raw, ?_, hloads⟩
  simp only [RedisCacheStore.encodeValue, htext, bind, Except.bind, hraw]
  rfl

/-- A dictionary that was written is read back. -/
theorem decodeEntry_encodeValue {raw : Bytes} (hdict : IsDict value)
    (h : value.Storable limits.digits limits.depth)
    (hraw : RedisCacheStore.encodeValue limits value = .ok raw) :
    RedisCacheStore.decodeEntry limits raw = .ok (some value) := by
  obtain ⟨raw', hraw', hloads⟩ := encodeValue_storable h
  obtain rfl := Except.ok.inj (hraw.symm.trans hraw')
  rw [RedisCacheStore.decodeEntry, hloads]
  cases value with
  | obj members => rfl
  | _ => exact absurd hdict id

theorem degrade_linkError {A : Type} (a : A) (text : String) (timeout : Bool) :
    RedisCacheStore.degrade a (.error (Redis.linkError text timeout)) = .ok a := by
  have hdegraded : (Redis.linkError text timeout).Degraded := by
    cases timeout <;> trivial
  exact if_pos hdegraded

/-- Reading leaves the store; a request that fails on its way reads as a miss. -/
theorem getJson_cases (link : Link) (key : String) (s : RedisStore) :
    (RedisCacheStore.getJson limits link key s).1 = s ∧
      ((RedisCacheStore.getJson limits link key s).2 = .ok none ∨
        ∃ raw, s key = some raw ∧
          (RedisCacheStore.getJson limits link key s).2 = RedisCacheStore.decodeEntry limits raw) := by
  have hfailed : ∀ text timeout, RedisCacheStore.readAnswer limits
      (.error (Redis.linkError text timeout)) = .ok none := by
    intro text timeout
    rw [RedisCacheStore.readAnswer, degrade_linkError]
    rfl
  cases link with
  | up =>
    refine ⟨rfl, ?_⟩
    show RedisCacheStore.readAnswer limits (.ok (s key)) = _ ∨ ∃ raw, _ ∧
      RedisCacheStore.readAnswer limits (.ok (s key)) = _
    cases hs : s key with
    | none => exact .inl rfl
    | some raw => exact .inr ⟨raw, rfl, rfl⟩
  | down text timeout => exact ⟨rfl, .inl (hfailed text timeout)⟩
  | lost text timeout => exact ⟨rfl, .inl (hfailed text timeout)⟩

/-- Writing a value that can be stored raises nothing, whatever happens to the request. -/
theorem setJson_storable {raw : Bytes} (key : String) (link : Link) (s : RedisStore)
    (hraw : RedisCacheStore.encodeValue limits value = .ok raw) (httl : 0 < ttl) :
    (RedisCacheStore.setJson limits link key value ttl s).2 = .ok () ∧
      ((RedisCacheStore.setJson limits link key value ttl s).1 = s ∨
        (RedisCacheStore.setJson limits link key value ttl s).1 = put key raw s) := by
  have hset : Redis.set key raw ttl s = (put key raw s, .ok ()) := if_neg (not_le.2 httl)
  simp only [RedisCacheStore.setJson, hraw]
  cases link with
  | up =>
    simp only [Redis.send, hset]
    exact ⟨rfl, .inr rfl⟩
  | down text timeout => exact ⟨degrade_linkError () text timeout, .inl rfl⟩
  | lost text timeout =>
    simp only [Redis.send, hset]
    exact ⟨degrade_linkError () text timeout, .inr rfl⟩

end RoundTrip

/-! ## The invariant -/

section Invariant

variable {C O : Type*} [DecidableEq C] (limits : PyJson.Limits) (calls : C → CachedCall O)

/-- The bytes are what is written for the result of a call with the key. -/
def Encodes (key : String) (raw : Bytes) : Prop :=
  ∃ c value, (calls c).key = .ok (some key) ∧ (calls c).value = .json value ∧ IsDict value ∧
    RedisCacheStore.encodeValue limits value = .ok raw

/-- What may stand under a key of a call. -/
def EntryOk (key : String) (raw : Bytes) : Prop :=
  PyJson.loads limits raw = .error .value ∨ Encodes limits calls key raw

/-- What is known of a call. -/
def PhaseOk (call : CachedCall O) : CachedPhase O → Prop
  | .called => True
  | .looking key => call.key = .ok (some key)
  | .missed key => call.key = .ok key
  | .computed key value => call.key = .ok (some key) ∧ call.value = .json value ∧ IsDict value
  | .returned result => result = call.value
  | .raised .keyFn => ∃ e, call.key = .error e
  | .raised .fn => True
  | .raised (.cache _) => False

/-- The entries, the requests on their way and the calls have the values of the function. -/
structure CachedInv (s : CachedState C O) : Prop where
  store : ∀ c key raw, (calls c).key = .ok (some key) → s.store key = some raw →
    EntryOk limits calls key raw
  inFlight : ∀ key raw, (key, raw) ∈ s.inFlight → Encodes limits calls key raw
  phases : ∀ c, PhaseOk (calls c) (s.phase c)

/-- What the calls have in common: the value depends on the key alone, and dictionaries that are
cached can be stored. -/
structure Cacheable : Prop where
  function : ∀ c c' key, (calls c).key = .ok (some key) → (calls c').key = .ok (some key) →
    (calls c).value = (calls c').value
  storable : ∀ c key members, (calls c).key = .ok (some key) →
    (calls c).value = .json (.obj members) →
    (PyJson.Value.obj members).Storable limits.digits limits.depth

variable {limits calls} {ttl : ℤ} {s s' : CachedState C O} {e : CachedEvent C} {c : C} {key : String}
  {raw : Bytes}

omit [DecidableEq C] in
theorem Cacheable.storable_of_isDict (h : Cacheable limits calls) {value : PyJson.Value}
    (hkey : (calls c).key = .ok (some key)) (hvalue : (calls c).value = .json value)
    (hdict : IsDict value) : value.Storable limits.digits limits.depth := by
  cases value with
  | obj members => exact h.storable c key members hkey hvalue
  | _ => exact absurd hdict id

omit [DecidableEq C] in
/-- An entry reads as a miss or as the value of the call. -/
theorem decodeEntry_of_entryOk (h : Cacheable limits calls) (hkey : (calls c).key = .ok (some key))
    (hraw : EntryOk limits calls key raw) : RedisCacheStore.decodeEntry limits raw = .ok none ∨
      ∃ value, (calls c).value = .json value ∧
        RedisCacheStore.decodeEntry limits raw = .ok (some value) := by
  rcases hraw with hloads | ⟨c', value, hkey', hvalue, hdict, hencode⟩
  · refine .inl ?_
    rw [RedisCacheStore.decodeEntry, hloads]
  · refine .inr ⟨value, (h.function c c' key hkey hkey').trans hvalue, ?_⟩
    exact decodeEntry_encodeValue hdict (h.storable_of_isDict hkey' hvalue hdict) hencode

/-- A step that changes the phase of one call. -/
theorem CachedInv.phase (h : CachedInv limits calls s) {p : CachedPhase O} (hp : PhaseOk (calls c) p) :
    ∀ c', PhaseOk (calls c') (Function.update s.phase c p c') := by
  intro c'
  by_cases hc : c' = c
  · subst hc
    rwa [Function.update_self]
  · rw [Function.update_of_ne hc]
    exact h.phases c'

omit [DecidableEq C] in
/-- An entry that is put under a key. -/
theorem CachedInv.put (h : CachedInv limits calls s) (hraw : EntryOk limits calls key raw) :
    ∀ c key' raw', (calls c).key = .ok (some key') → put key raw s.store key' = some raw' →
      EntryOk limits calls key' raw' := by
  intro c key' raw' hkey hstore
  by_cases hk : key' = key
  · subst hk
    rw [put_self] at hstore
    obtain rfl := Option.some.inj hstore
    exact hraw
  · rw [put_of_ne hk] at hstore
    exact h.store c key' raw' hkey hstore

omit [DecidableEq C] in
/-- The phase after the cache was read. -/
theorem CachedInv.afterGet (h : CachedInv limits calls s) (hcalls : Cacheable limits calls)
    (hkey : (calls c).key = .ok (some key)) (link : Link) :
    PhaseOk (calls c) (afterGet key (RedisCacheStore.getJson limits link key s.store).2) := by
  obtain ⟨-, hanswer | ⟨raw, hraw, hanswer⟩⟩ := getJson_cases link key s.store
  · rw [hanswer]
    exact hkey
  · rw [hanswer]
    rcases decodeEntry_of_entryOk hcalls hkey (h.store c key raw hkey hraw) with
      hdecode | ⟨value, hvalue, hdecode⟩
    · rw [hdecode]
      exact hkey
    · rw [hdecode]
      exact hvalue.symm

omit [DecidableEq C] in
/-- The phase after the function has returned. -/
theorem phaseOk_afterFn {call : CachedCall O} {key : Option String} (hkey : call.key = .ok key) :
    PhaseOk call (afterFn key call.value) := by
  cases key with
  | none => rfl
  | some key =>
    cases hvalue : call.value with
    | other o => exact hvalue.symm
    | json value =>
      rw [afterFn]
      split_ifs with hdict
      · exact ⟨hkey, hvalue, hdict⟩
      · exact hvalue.symm

omit [DecidableEq C] in
theorem encodes_of_mem_unanswered {value : PyJson.Value} {link : Link}
    (hkey : (calls c).key = .ok (some key)) (hvalue : (calls c).value = .json value)
    (hdict : IsDict value) {key' : String} (hmem : (key', raw) ∈ unanswered limits key value link) :
    Encodes limits calls key' raw := by
  have hencode : ∀ raw', RedisCacheStore.encodeValue limits value = .ok raw' →
      (key', raw) = (key, raw') → Encodes limits calls key' raw := by
    rintro raw' hraw heq
    cases heq
    exact ⟨c, value, hkey, hvalue, hdict, hraw⟩
  cases link with
  | up => cases hmem
  | down text timeout | lost text timeout =>
    rw [unanswered] at hmem
    cases hraw : RedisCacheStore.encodeValue limits value with
    | error e =>
      rw [hraw] at hmem
      cases hmem
    | ok raw' =>
      rw [hraw] at hmem
      exact hencode raw' hraw (List.mem_singleton.1 hmem)

/-- Every step keeps the invariant. -/
theorem cachedInv_step (hcalls : Cacheable limits calls) (httl : 0 < ttl) (h : CachedInv limits calls s)
    (hstep : CachedStep limits ttl calls s e s') : CachedInv limits calls s' := by
  cases hstep with
  | @call c hcalled =>
    refine ⟨h.store, h.inFlight, h.phase ?_⟩
    cases hkey : (calls c).key with
    | error e => exact ⟨e, hkey⟩
    | ok key => cases key <;> exact hkey
  | @get c key link hlooking =>
    have hkey : PhaseOk (calls c) (.looking key) := hlooking ▸ h.phases c
    refine ⟨?_, h.inFlight, h.phase (h.afterGet hcalls hkey link)⟩
    rw [(getJson_cases link key s.store).1]
    exact h.store
  | @compute c key hmissed =>
    have hkey : PhaseOk (calls c) (.missed key) := hmissed ▸ h.phases c
    exact ⟨h.store, h.inFlight, h.phase (phaseOk_afterFn hkey)⟩
  | @fail c key hmissed => exact ⟨h.store, h.inFlight, h.phase trivial⟩
  | @set c key value link hcomputed =>
    have hphase : PhaseOk (calls c) (.computed key value) := hcomputed ▸ h.phases c
    obtain ⟨hkey, hvalue, hdict⟩ := hphase
    obtain ⟨raw, hraw, -⟩ := encodeValue_storable (hcalls.storable_of_isDict hkey hvalue hdict)
    obtain ⟨hanswer, hstore⟩ := setJson_storable key link s.store hraw httl
    refine ⟨?_, ?_, h.phase ?_⟩
    · rcases hstore with hstore | hstore
      · rw [hstore]
        exact h.store
      · rw [hstore]
        exact h.put (.inr ⟨c, value, hkey, hvalue, hdict, hraw⟩)
    · intro key' raw' hmem
      rcases List.mem_append.1 hmem with hold | hnew
      · exact h.inFlight key' raw' hold
      · exact encodes_of_mem_unanswered hkey hvalue hdict hnew
    · rw [hanswer]
      exact hvalue.symm
  | @late key raw hlate =>
    have hset : Redis.set key raw ttl s.store = (put key raw s.store, .ok ()) := if_neg (not_le.2 httl)
    refine ⟨?_, h.inFlight, h.phases⟩
    rw [hset]
    exact h.put (.inr (h.inFlight key raw hlate))
  | @erase key =>
    refine ⟨fun c key' raw hkey hstore => ?_, h.inFlight, h.phases⟩
    change erase key s.store key' = some raw at hstore
    by_cases hk : key' = key
    · subst hk
      rw [erase_self] at hstore
      cases hstore
    · rw [erase_of_ne hk] at hstore
      exact h.store c key' raw hkey hstore
  | @corrupt key raw hraw => exact ⟨h.put (.inl hraw), h.inFlight, h.phases⟩
  | @foreign key entry hnone =>
    refine ⟨fun c key' raw hkey hstore => ?_, h.inFlight, h.phases⟩
    have hk : key' ≠ key := by
      rintro rfl
      exact hnone c hkey
    change Function.update s.store key entry key' = some raw at hstore
    rw [Function.update_of_ne hk] at hstore
    exact h.store c key' raw hkey hstore

omit [DecidableEq C] in
theorem cachedInv_init {store : RedisStore} (hfresh : ∀ c key, (calls c).key = .ok (some key) →
    store key = none) : CachedInv limits calls (.init store : CachedState C O) := by
  refine ⟨fun c key raw hkey hstore => ?_, fun key raw hmem => absurd hmem List.not_mem_nil,
    fun c => trivial⟩
  have hnone : store key = none := hfresh c key hkey
  exact absurd (hstore.symm.trans hnone) (Option.some_ne_none raw)

/-- What the events say about the calls: which have failed, and that a call without a key has made no
request. -/
structure TraceOk (calls : C → CachedCall O) (tr : List (CachedEvent C)) (s : CachedState C O) :
    Prop where
  failed : ∀ c, s.phase c = .raised .fn → .fail c ∈ tr
  bypass : ∀ c, (calls c).key = .ok none → .get c ∉ tr ∧ .set c ∉ tr

omit [DecidableEq C] in
/-- One more event, after which no other call has failed. -/
theorem TraceOk.append {tr : List (CachedEvent C)} (htr : TraceOk calls tr s)
    (hfailed : ∀ c, s'.phase c = .raised .fn → s.phase c = .raised .fn ∨ e = .fail c)
    (hbypass : ∀ c, e = .get c ∨ e = .set c → (calls c).key ≠ .ok none) :
    TraceOk calls (tr ++ [e]) s' := by
  constructor
  · intro c hc
    rcases hfailed c hc with hold | rfl
    · exact List.mem_append_left _ (htr.failed c hold)
    · exact List.mem_append_right _ (List.mem_singleton_self _)
  · intro c hkey
    obtain ⟨hget, hset⟩ := htr.bypass c hkey
    simp only [List.mem_append, List.mem_singleton, not_or]
    exact ⟨⟨hget, fun he => hbypass c (.inl he.symm) hkey⟩,
      ⟨hset, fun he => hbypass c (.inr he.symm) hkey⟩⟩

theorem failed_of_update {p : CachedPhase O} (hp : p ≠ .raised .fn) {c' : C}
    (h : Function.update s.phase c p c' = .raised .fn) : s.phase c' = .raised .fn := by
  by_cases hc : c' = c
  · subst hc
    rw [Function.update_self] at h
    exact absurd h hp
  · rwa [Function.update_of_ne hc] at h

theorem afterKey_ne (key : Except Unit (Option String)) :
    (afterKey key : CachedPhase O) ≠ .raised .fn := by
  fun_cases afterKey key <;> simp

theorem afterGet_ne (answer : Except CacheError (Option PyJson.Value)) :
    (afterGet key answer : CachedPhase O) ≠ .raised .fn := by
  fun_cases afterGet key answer <;> simp

theorem afterFn_ne (key : Option String) (result : Returned O) :
    afterFn key result ≠ .raised .fn := by
  fun_cases afterFn key result <;> simp

theorem afterSet_ne (value : PyJson.Value) (answer : Except CacheError Unit) :
    (afterSet value answer : CachedPhase O) ≠ .raised .fn := by
  fun_cases afterSet value answer <;> simp

theorem traceOk_step {tr : List (CachedEvent C)} (h : CachedInv limits calls s)
    (htr : TraceOk calls tr s) (hstep : CachedStep limits ttl calls s e s') :
    TraceOk calls (tr ++ [e]) s' := by
  cases hstep with
  | @call c hcalled =>
    exact htr.append (fun c' hc' => .inl (failed_of_update (afterKey_ne _) hc')) (by simp)
  | @get c key link hlooking =>
    have hkey : PhaseOk (calls c) (.looking key) := hlooking ▸ h.phases c
    refine htr.append (fun c' hc' => .inl (failed_of_update (afterGet_ne _) hc')) ?_
    rintro c' (hc' | hc') hnone <;> cases hc'
    cases hkey.symm.trans hnone
  | @compute c key hmissed =>
    exact htr.append (fun c' hc' => .inl (failed_of_update (afterFn_ne _ _) hc')) (by simp)
  | @fail c key hmissed =>
    refine htr.append (fun c' hc' => ?_) (by simp)
    by_cases hc : c' = c
    · exact .inr (hc ▸ rfl)
    · exact .inl ((Function.update_of_ne hc _ _).symm.trans hc')
  | @set c key value link hcomputed =>
    have hphase : PhaseOk (calls c) (.computed key value) := hcomputed ▸ h.phases c
    refine htr.append (fun c' hc' => .inl (failed_of_update (afterSet_ne _ _) hc')) ?_
    rintro c' (hc' | hc') hnone <;> cases hc'
    cases hphase.1.symm.trans hnone
  | late _ | erase | corrupt _ | foreign _ => exact htr.append (fun c' hc' => .inl hc') (by simp)

end Invariant

/-- A call that has not ended. -/
def CachedPhase.Running {O : Type*} : CachedPhase O → Prop
  | .returned _ | .raised _ => False
  | _ => True

section Alone

variable {C O : Type*} [DecidableEq C] {limits : PyJson.Limits} {ttl : ℤ} {calls : C → CachedCall O}
  {s : CachedState C O} {c : C} {key : String} {value : PyJson.Value}

/-- A call whose entry is free runs the function, and has a dictionary to write. -/
theorem exists_miss (hcalled : s.phase c = .called) (hkey : (calls c).key = .ok (some key))
    (hvalue : (calls c).value = .json value) (hdict : IsDict value) (hnone : s.store key = none) :
    ∃ s', Run (CachedStep limits ttl calls) s [.call c, .get c, .compute c] s' ∧
      s'.phase c = .computed key value ∧ s'.store = s.store ∧ ∀ c' ≠ c, s'.phase c' = s.phase c' := by
  let phase₁ : C → CachedPhase O := Function.update s.phase c (.looking key)
  let phase₂ : C → CachedPhase O := Function.update phase₁ c (.missed (some key))
  have h₁ : CachedStep limits ttl calls s (.call c) ⟨s.store, s.inFlight, phase₁⟩ := by
    have hstep : CachedStep limits ttl calls s (.call c) _ := .call hcalled
    rwa [hkey] at hstep
  have h₂ : CachedStep limits ttl calls ⟨s.store, s.inFlight, phase₁⟩ (.get c)
      ⟨s.store, s.inFlight, phase₂⟩ := by
    have hstep : CachedStep limits ttl calls ⟨s.store, s.inFlight, phase₁⟩ (.get c) _ :=
      .get .up (Function.update_self c _ _)
    have hanswer : RedisCacheStore.getJson limits .up key s.store = (s.store, .ok none) := by
      show (s.store, RedisCacheStore.readAnswer limits (.ok (s.store key))) = _
      rw [hnone]
      rfl
    rwa [hanswer] at hstep
  have h₃ : CachedStep limits ttl calls ⟨s.store, s.inFlight, phase₂⟩ (.compute c)
      ⟨s.store, s.inFlight, Function.update phase₂ c (.computed key value)⟩ := by
    have hstep : CachedStep limits ttl calls ⟨s.store, s.inFlight, phase₂⟩ (.compute c) _ :=
      .compute (Function.update_self c _ _)
    rwa [hvalue, afterFn, if_pos hdict] at hstep
  refine ⟨_, .cons h₁ <| .cons h₂ <| .single h₃, Function.update_self _ _ _, rfl, fun c' hc => ?_⟩
  simp only [phase₁, phase₂, Function.update_of_ne hc]

/-- What the request to write raises, the call raises. -/
theorem exists_raise {e : CacheError} (hcomputed : s.phase c = .computed key value)
    (hset : (RedisCacheStore.setJson limits .up key value ttl s.store).2 = .error e) :
    ∃ s', CachedStep limits ttl calls s (.set c) s' ∧ s'.phase c = .raised (.cache e) := by
  refine ⟨_, .set .up hcomputed, ?_⟩
  rw [hset]
  exact Function.update_self _ _ _

/-- What the function returns is written. -/
theorem exists_set {raw : Bytes} (httl : 0 < ttl) (hcomputed : s.phase c = .computed key value)
    (hraw : RedisCacheStore.encodeValue limits value = .ok raw) :
    ∃ s', CachedStep limits ttl calls s (.set c) s' ∧ s'.phase c = .returned (.json value) ∧
      s'.store key = some raw ∧ ∀ c' ≠ c, s'.phase c' = s.phase c' := by
  have hset : RedisCacheStore.setJson limits .up key value ttl s.store = (put key raw s.store, .ok ()) := by
    have hput : Redis.set key raw ttl s.store = (put key raw s.store, .ok ()) := if_neg (not_le.2 httl)
    simp only [RedisCacheStore.setJson, hraw, Redis.send, hput]
    rfl
  refine ⟨_, .set .up hcomputed, ?_, ?_, fun c' hc => Function.update_of_ne hc _ _⟩
  · rw [hset]
    exact Function.update_self _ _ _
  · rw [hset]
    exact put_self

/-- A call whose entry is there returns what it decodes to. -/
theorem exists_hit {raw : Bytes} (hcalled : s.phase c = .called)
    (hkey : (calls c).key = .ok (some key)) (hstore : s.store key = some raw)
    (hdecode : RedisCacheStore.decodeEntry limits raw = .ok (some value)) :
    ∃ s', Run (CachedStep limits ttl calls) s [.call c, .get c] s' ∧
      s'.phase c = .returned (.json value) := by
  let phase₁ : C → CachedPhase O := Function.update s.phase c (.looking key)
  have h₁ : CachedStep limits ttl calls s (.call c) ⟨s.store, s.inFlight, phase₁⟩ := by
    have hstep : CachedStep limits ttl calls s (.call c) _ := .call hcalled
    rwa [hkey] at hstep
  have hanswer : RedisCacheStore.getJson limits .up key s.store = (s.store, .ok (some value)) := by
    show (s.store, RedisCacheStore.readAnswer limits (.ok (s.store key))) = _
    rw [hstore, ← hdecode]
    rfl
  refine ⟨_, .cons h₁ <| .single <| .get (s := ⟨s.store, s.inFlight, phase₁⟩) .up
    (Function.update_self c _ _), ?_⟩
  rw [hanswer]
  exact Function.update_self _ _ _

/-- One call writes its result, and another one with the same key returns what is read back. -/
theorem exists_write_and_hit {c' : C} {value' : PyJson.Value} {raw : Bytes} {store : RedisStore}
    (httl : 0 < ttl) (hne : c' ≠ c) (hcall : calls c = ⟨.ok (some key), .json value⟩)
    (hkey : (calls c').key = .ok (some key)) (hdict : IsDict value) (hnone : store key = none)
    (hraw : RedisCacheStore.encodeValue limits value = .ok raw)
    (hdecode : RedisCacheStore.decodeEntry limits raw = .ok (some value')) :
    ∃ s, Run (CachedStep limits ttl calls) (.init store)
      ([.call c, .get c, .compute c] ++ .set c :: [.call c', .get c']) s ∧
      s.phase c' = .returned (.json value') := by
  obtain ⟨s₁, h₁, hphase₁, -, hother₁⟩ := exists_miss (s := .init store) rfl
    (congrArg CachedCall.key hcall) (congrArg CachedCall.value hcall) hdict hnone
  obtain ⟨s₂, h₂, -, hstore₂, hother₂⟩ := exists_set httl hphase₁ hraw
  obtain ⟨s, h₃, hphase⟩ := exists_hit ((hother₂ c' hne).trans (hother₁ c' hne)) hkey hstore₂ hdecode
  exact ⟨s, Run.append_iff.2 ⟨s₁, h₁, .cons h₂ h₃⟩, hphase⟩

/-- The request to write the result of a call raises. -/
theorem exists_write_and_raise {store : RedisStore} {e : CacheError}
    (hcall : calls c = ⟨.ok (some key), .json value⟩) (hdict : IsDict value)
    (hnone : store key = none)
    (hset : (RedisCacheStore.setJson limits .up key value ttl store).2 = .error e) :
    ∃ s, Run (CachedStep limits ttl calls) (.init store) ([.call c, .get c, .compute c] ++ [.set c]) s ∧
      s.phase c = .raised (.cache e) := by
  obtain ⟨s₁, h₁, hphase₁, hstore₁, -⟩ := exists_miss (s := .init store) rfl
    (congrArg CachedCall.key hcall) (congrArg CachedCall.value hcall) hdict hnone
  have hset₁ : (RedisCacheStore.setJson limits .up key value ttl s₁.store).2 = .error e := by
    rw [hstore₁]
    exact hset
  obtain ⟨s, h₂, hphase⟩ := exists_raise hphase₁ hset₁
  exact ⟨s, h₁.snoc h₂, hphase⟩

end Alone

/-- `cached_json` is transparent.  In every interleaving of wrapped calls, whatever happens to entries
and requests: a call that returns returns the value of the function, a call raises only what `key_fn`
or the function has raised, a call that has not ended can go on, and a call whose key is `None` makes
no request. -/
theorem cached_json_transparent {C O : Type*} [DecidableEq C] {limits : PyJson.Limits} {ttl : ℤ}
    {calls : C → CachedCall O} {store : RedisStore} {tr : List (CachedEvent C)} {s : CachedState C O}
    (hcalls : Cacheable limits calls) (httl : 0 < ttl)
    (hfresh : ∀ c key, (calls c).key = .ok (some key) → store key = none)
    (h : Run (CachedStep limits ttl calls) (.init store) tr s) :
    (∀ c result, s.phase c = .returned result → result = (calls c).value) ∧
    (∀ c e, s.phase c = .raised e →
      (e = .keyFn ∧ ∃ u, (calls c).key = .error u) ∨ (e = .fn ∧ .fail c ∈ tr)) ∧
    (∀ c, (s.phase c).Running → ∃ e s', e.call? = some c ∧ CachedStep limits ttl calls s e s') ∧
    ∀ c, (calls c).key = .ok none → .get c ∉ tr ∧ .set c ∉ tr := by
  obtain ⟨hinv, htrace⟩ : CachedInv limits calls s ∧ TraceOk calls tr s := by
    refine h.rec_inv (fun tr s => CachedInv limits calls s ∧ TraceOk calls tr s)
      ⟨cachedInv_init hfresh, ⟨fun c hc => (by cases hc), fun c _ => ⟨List.not_mem_nil, List.not_mem_nil⟩⟩⟩ ?_
    rintro tr s e s' - ⟨hinv, htrace⟩ hstep
    exact ⟨cachedInv_step hcalls httl hinv hstep, traceOk_step hinv htrace hstep⟩
  refine ⟨fun c result hc => ?_, fun c e hc => ?_, fun c hc => ?_, htrace.bypass⟩
  · have hphase := hinv.phases c
    rw [hc] at hphase
    exact hphase
  · have hphase := hinv.phases c
    rw [hc] at hphase
    cases e with
    | keyFn => exact .inl ⟨rfl, hphase⟩
    | fn => exact .inr ⟨rfl, htrace.failed c hc⟩
    | cache e => exact absurd hphase id
  · cases hphase : s.phase c with
    | called => exact ⟨_, _, rfl, .call hphase⟩
    | looking key => exact ⟨_, _, rfl, .get .up hphase⟩
    | missed key => exact ⟨_, _, rfl, .compute hphase⟩
    | computed key value => exact ⟨_, _, rfl, .set .up hphase⟩
    | returned result => exact absurd hc (by rw [hphase]; exact id)
    | raised e => exact absurd hc (by rw [hphase]; exact id)

/-- A call that writes its result, and a second one that finds it. -/
theorem cached_json_transparent_hit :
    let limits : PyJson.Limits := ⟨4300, 1000⟩
    let value : PyJson.Value := .obj [(PyJson.ascii "a", .int 1)]
    let calls : ℕ → CachedCall Empty := fun _ => ⟨.ok (some "k"), .json value⟩
    ∃ s, Run (CachedStep limits 60 calls) (.init fun _ => none)
      ([.call 0, .get 0, .compute 0] ++ .set 0 :: [.call 1, .get 1]) s ∧
      ∀ result, s.phase 1 = .returned result → result = .json value := by
  intro limits value calls
  have hstorable : value.Storable limits.digits limits.depth := by
    refine ⟨List.nodup_singleton _, ⟨?_, ?_⟩, trivial⟩
    · simp [PyJson.ascii, PyJson.Unpaired]
    · show (PyJson.decimal 1).length ≤ 4300
      decide
  obtain ⟨raw, hraw, -⟩ := encodeValue_storable hstorable
  have hdict : IsDict value := trivial
  obtain ⟨s, hrun, -⟩ : ∃ s, Run (CachedStep limits 60 calls) (.init fun _ => none)
      ([.call 0, .get 0, .compute 0] ++ .set 0 :: [.call 1, .get 1]) s ∧
      s.phase 1 = .returned (.json value) := by
    refine exists_write_and_hit ?_ ?_ rfl rfl hdict rfl hraw
      (decodeEntry_encodeValue hdict hstorable hraw) <;> decide
  have hcalls : Cacheable limits calls := by
    refine ⟨fun _ _ _ _ _ => rfl, fun c key members _ hvalue => ?_⟩
    have hmembers : value = .obj members := Returned.json.inj hvalue
    rwa [← hmembers]
  exact ⟨s, hrun, (cached_json_transparent hcalls (by decide) (fun _ _ _ => rfl) hrun).1 1⟩

section Unstored

variable {limits : PyJson.Limits} {value : PyJson.Value} {e : PyJson.Error} {digits depth : ℕ}

theorem encodeValue_of_error (h : PyJson.dumps limits value = .error e) :
    RedisCacheStore.encodeValue limits value = .error e := by
  rw [RedisCacheStore.encodeValue, h]
  rfl

/-- What one member raises, the dictionary raises. -/
theorem encode_member_error (k : PyJson.Text) (h : PyJson.encode .default digits value depth = .error e) :
    PyJson.encode .default digits (.obj [(k, value)]) (depth + 1) = .error e := by
  rw [PyJson.encode, PyJson.encodeMembers, h]
  rfl

/-- Lists in one another, more than there is room for. -/
theorem encode_nested {n : ℕ} (h : depth < n) :
    PyJson.encode .default digits (n.repeat (fun v => .arr [v]) .null) depth = .error .recursion := by
  induction n generalizing depth with
  | zero => exact absurd h (Nat.not_lt_zero _)
  | succ n ih =>
    rw [Nat.repeat]
    cases depth with
    | zero => rw [PyJson.encode]
    | succ depth =>
      rw [PyJson.encode, PyJson.encodeItems, ih (Nat.lt_of_succ_lt_succ h)]
      rfl

theorem encode_large {n : ℕ} (h : 10 ^ digits ≤ n) (hdigits : 0 < digits) :
    PyJson.encode .default digits (.int n) depth = .error .value := by
  have hlength : digits < (PyJson.decimal n).length := by
    rw [PyJson.decimal, List.length_map]
    exact Nat.not_le.1 fun hle => Nat.not_lt.2 h ((Nat.length_toDigits_le_iff (by decide) hdigits).1 hle)
  rw [PyJson.encode, PyJson.intText]
  exact if_pos hlength

end Unstored

/-- Results that are not stored as they are.  An integer with more digits than the interpreter writes,
and too many lists in one another, make the call raise; so does a time to live that is not positive.
Two surrogates that are read back as one code point make the second call return another string. -/
theorem cached_json_not_transparent :
    let limits : PyJson.Limits := ⟨4300, 1000⟩
    let calls : PyJson.Value → ℕ → CachedCall Empty := fun value _ =>
      ⟨.ok (some "k"), .json (.obj [(PyJson.ascii "a", value)])⟩
    let nested : ℕ → PyJson.Value := fun n => n.repeat (fun v => .arr [v]) .null
    (∃ s, Run (CachedStep limits 60 (calls (.int (10 ^ 4300)))) (.init fun _ => none)
      ([.call 0, .get 0, .compute 0] ++ [.set 0]) s ∧
      s.phase 0 = .raised (.cache (.json .value))) ∧
    (∃ s, Run (CachedStep limits 60 (calls (nested 1000))) (.init fun _ => none)
      ([.call 0, .get 0, .compute 0] ++ [.set 0]) s ∧
      s.phase 0 = .raised (.cache (.json .recursion))) ∧
    (∃ s, Run (CachedStep limits 0 (calls .null)) (.init fun _ => none)
      ([.call 0, .get 0, .compute 0] ++ [.set 0]) s ∧
      s.phase 0 = .raised (.cache (.redis Redis.invalidExpire))) ∧
    ∃ s, Run (CachedStep limits 60 (calls (.str [.ofNat 0xD83D, .ofNat 0xDE00]))) (.init fun _ => none)
      ([.call 0, .get 0, .compute 0] ++ .set 0 :: [.call 1, .get 1]) s ∧
      s.phase 1 = .returned (.json (.obj [(PyJson.ascii "a", .str [.ofNat 0x1F600])])) := by
  intro limits calls nested
  have hset : ∀ value e, PyJson.encode .default 4300 value 999 = .error e → ∀ key s,
      (RedisCacheStore.setJson limits .up key (.obj [(PyJson.ascii "a", value)]) 60 s).2 =
        .error (.json e) := by
    intro value e hvalue key s
    have hdumps : PyJson.dumps limits (.obj [(PyJson.ascii "a", value)]) = .error e :=
      encode_member_error _ hvalue
    rw [RedisCacheStore.setJson, encodeValue_of_error hdumps]
  have hstorable : ∀ v : PyJson.Value, v.Storable 4300 999 →
      (PyJson.Value.obj [(PyJson.ascii "a", v)]).Storable limits.digits limits.depth := by
    intro v hv
    exact ⟨List.nodup_singleton _, ⟨by simp [PyJson.ascii, PyJson.Unpaired], hv⟩, trivial⟩
  refine ⟨?_, ?_, ?_, ?_⟩
  · refine exists_write_and_raise rfl trivial rfl (hset _ _ ?_ _ _)
    have hlarge : PyJson.encode .default 4300 (.int ((10 ^ 4300 : ℕ) : ℤ)) 999 = .error .value :=
      encode_large (Nat.le_refl _) (by decide)
    rwa [Nat.cast_pow] at hlarge
  · exact exists_write_and_raise rfl trivial rfl (hset _ _ (encode_nested (by decide)) _ _)
  · obtain ⟨raw, hraw, -⟩ := encodeValue_storable (hstorable .null trivial)
    refine exists_write_and_raise rfl trivial rfl ?_
    rw [RedisCacheStore.setJson, hraw]
    rfl
  · have hjoined : (PyJson.Value.str [.ofNat 0x1F600]).Storable 4300 999 := by
      refine ⟨?_, trivial⟩
      simp
    obtain ⟨raw, hraw, -⟩ := encodeValue_storable (hstorable _ hjoined)
    have hquote : PyJson.Options.default.quote [.ofNat 0xD83D, .ofNat 0xDE00] =
        PyJson.Options.default.quote [.ofNat 0x1F600] := by
      decide
    have hsame : RedisCacheStore.encodeValue limits (.obj [(PyJson.ascii "a", .str [.ofNat 0xD83D,
        .ofNat 0xDE00])]) = .ok raw := by
      rw [← hraw]
      simp only [RedisCacheStore.encodeValue, PyJson.dumps, limits, PyJson.encode,
        PyJson.encodeMembers, hquote]
    exact exists_write_and_hit (by decide) (by decide) rfl rfl trivial rfl hsame
      (decodeEntry_encodeValue trivial (hstorable _ hjoined) hraw)

end Ipa
