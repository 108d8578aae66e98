import Ipa.Lib.Run
import Ipa.Storage.Redis

/-!
# Locks with leases

`RedisCacheStore.lock` acquires a lock with `SET NX EX` and releases it with a script that deletes the
key if it still holds the context's token.  Contexts enter and leave in any interleaving, keys expire
at any moment, and a request whose answer did not arrive may be executed at any later moment, or never
(`LockStep`).  A context has the lease from the moment it was told so until the key expires or its own
release is executed (`Lease`).

* `held_run`: while a context has the lease, the key holds its token.
* `lock_safe`: at most one context has the lease on a name, no other context takes it away, and a
  context that was refused never changes the store.
-/

namespace Ipa

open KeyValue

/-- The arguments of a call of `lock`, with the environment of its store and the identifier it draws. -/
structure LockCall where
  env : Segment
  name : String
  ttl : ℤ
  uuid4 : UUID

namespace LockCall

/-- `uuid4().hex`, as it is sent. -/
def token (call : LockCall) : Bytes := utf8 (String.ofList call.uuid4.hex)

/-- The key of the lock. -/
def fullKey (call : LockCall) : String := buildKey call.env.text lockKind.text call.name

/-- The request made on entering the context. -/
def acquire (call : LockCall) : RedisStore → RedisStore × Except RedisError Bool :=
  Redis.setNx call.fullKey call.token call.ttl

/-- The request made on leaving the context, if it has acquired the lock. -/
def release (call : LockCall) : RedisStore → RedisStore × Except RedisError ℕ :=
  Redis.releaseLockScript call.fullKey call.token

theorem token_inj {call call' : LockCall} (h : call.token = call'.token) :
    call.uuid4 = call'.uuid4 :=
  UUID.hex_injective (String.ofList_inj.1 (utf8_injective h))

end LockCall

/-- Where a context stands: not entered, failed to enter, inside, or left. -/
inductive LockPhase
  | new
  | failed
  | inside (acquired : Bool)
  | exited (acquired : Bool)
deriving DecidableEq

/-- The store and the contexts. -/
structure LockState (C : Type*) where
  store : RedisStore
  phase : C → LockPhase

/-- Entering with its outcome, leaving, the execution of a request that was sent before, and the
expiry of a key. -/
inductive LockEvent (C : Type*)
  | enter (c : C) (outcome : Except RedisError Bool)
  | leave (c : C)
  | request (c : C)
  | expire (key : String)

/-- The context that an event is of. -/
def LockEvent.context? {C : Type*} : LockEvent C → Option C
  | enter c _ | leave c | request c => some c
  | expire _ => none

/-- The phase after entering. -/
def afterEnter : Except RedisError Bool → LockPhase
  | .ok acquired => .inside acquired
  | .error _ => .failed

section

variable {C : Type*} [DecidableEq C] (calls : C → LockCall)

/-- A context enters or leaves, a request is executed, or a key expires. -/
inductive LockStep : LockState C → LockEvent C → LockState C → Prop
  | enter {s : LockState C} {c : C} (link : Link) (hnew : s.phase c = .new) :
      LockStep s (.enter c (Redis.send link (calls c).acquire s.store).2)
        ⟨(Redis.send link (calls c).acquire s.store).1,
          Function.update s.phase c (afterEnter (Redis.send link (calls c).acquire s.store).2)⟩
  | leave {s : LockState C} {c : C} {acquired : Bool} (hinside : s.phase c = .inside acquired) :
      LockStep s (.leave c) ⟨s.store, Function.update s.phase c (.exited acquired)⟩
  /-- A request to acquire whose answer did not arrive. -/
  | acquire {s : LockState C} {c : C} (hfailed : s.phase c = .failed) :
      LockStep s (.request c) ⟨((calls c).acquire s.store).1, s.phase⟩
  /-- The release that is sent on leaving: an error in its answer is only logged. -/
  | release {s : LockState C} {c : C} (hexited : s.phase c = .exited true) :
      LockStep s (.request c) ⟨((calls c).release s.store).1, s.phase⟩
  | expire {s : LockState C} {key : String} (hkey : s.store key ≠ none) :
      LockStep s (.expire key) ⟨erase key s.store, s.phase⟩

/-- The context was told that it has the lock, and since then neither has the key expired nor its
release been executed. -/
def Lease (tr : List (LockEvent C)) (c : C) : Prop :=
  ∃ tr₁ tr₂, tr = tr₁ ++ .enter c (.ok true) :: tr₂ ∧ .expire (calls c).fullKey ∉ tr₂ ∧
    .request c ∉ tr₂

variable {calls} {s s' : LockState C} {e : LockEvent C} {tr : List (LockEvent C)} {c c' : C}

omit [DecidableEq C] in
/-- The lease after one more event. -/
theorem lease_append : Lease calls (tr ++ [e]) c ↔
    e = .enter c (.ok true) ∨
      Lease calls tr c ∧ e ≠ .expire (calls c).fullKey ∧ e ≠ .request c := by
  constructor
  · rintro ⟨tr₁, tr₂, htr, hexpire, hrequest⟩
    rcases List.eq_nil_or_concat tr₂ with rfl | ⟨tr₂, e', rfl⟩
    · exact .inl (List.singleton_inj.1 (List.append_inj' htr rfl).2)
    · rw [List.concat_eq_append] at htr hexpire hrequest
      rw [← List.cons_append, ← List.append_assoc] at htr
      obtain ⟨rfl, he⟩ := List.append_inj' htr rfl
      obtain rfl := List.singleton_inj.1 he
      simp only [List.mem_append, List.mem_singleton, not_or] at hexpire hrequest
      exact .inr ⟨⟨tr₁, tr₂, rfl, hexpire.1, hrequest.1⟩, Ne.symm hexpire.2, Ne.symm hrequest.2⟩
  · rintro (rfl | ⟨⟨tr₁, tr₂, rfl, hexpire, hrequest⟩, he, he'⟩)
    · exact ⟨tr, [], rfl, List.not_mem_nil, List.not_mem_nil⟩
    · refine ⟨tr₁, tr₂ ++ [e], by rw [List.append_assoc]; rfl, ?_, ?_⟩
      · simpa only [List.mem_append, List.mem_singleton, not_or] using ⟨hexpire, Ne.symm he⟩
      · simpa only [List.mem_append, List.mem_singleton, not_or] using ⟨hrequest, Ne.symm he'⟩

/-! ## What the requests do -/

namespace LockCall

variable {call : LockCall} {store : RedisStore} {key : String} {value : Bytes} {link : Link}

/-- Entering leaves a key that is taken. -/
theorem acquire_of_some (h : store key = some value) : (call.acquire store).1 key = some value := by
  unfold acquire Redis.setNx
  split_ifs
  · exact h
  · exact putNew_fst_of_some h

theorem send_acquire_of_some (h : store key = some value) :
    (Redis.send link call.acquire store).1 key = some value := by
  cases link with
  | up => exact acquire_of_some h
  | down text timeout => exact h
  | lost text timeout => exact acquire_of_some h

/-- A context that is told that it has the lock has put its token under the key. -/
theorem send_acquire_true (h : (Redis.send link call.acquire store).2 = .ok true) :
    (Redis.send link call.acquire store).1 call.fullKey = some call.token := by
  cases link with
  | up =>
    change (Redis.setNx _ _ _ _).2 = _ at h
    show (Redis.setNx _ _ _ _).1 _ = _
    unfold Redis.setNx at h ⊢
    split_ifs at h ⊢
    have hfree := putNew_snd_eq_true (Except.ok.inj h)
    rw [putNew_of_none hfree]
    exact put_self
  | down text timeout => cases h
  | lost text timeout => cases h

/-- A context that is refused has changed nothing. -/
theorem send_acquire_false (h : (Redis.send link call.acquire store).2 = .ok false) :
    (Redis.send link call.acquire store).1 = store := by
  cases link with
  | up =>
    change (Redis.setNx _ _ _ _).2 = _ at h
    show (Redis.setNx _ _ _ _).1 = _
    unfold Redis.setNx at h ⊢
    split_ifs at h ⊢
    exact putNew_fst_of_false (Except.ok.inj h)
  | down text timeout => cases h
  | lost text timeout => cases h

/-- A release leaves the token of another context. -/
theorem release_of_ne (h : store key = some value) (hne : value ≠ call.token) :
    (call.release store).1 key = some value :=
  compareAndErase_fst_of_ne h hne

end LockCall

/-! ## What the events do to the phases -/

theorem phase_of_ne (hstep : LockStep calls s e s') (hc : e.context? ≠ some c) :
    s'.phase c = s.phase c := by
  cases hstep with
  | enter => exact Function.update_of_ne (fun h => hc (congrArg some h.symm)) _ _
  | leave => exact Function.update_of_ne (fun h => hc (congrArg some h.symm)) _ _
  | acquire => rfl
  | release => rfl
  | expire => rfl

theorem enter_spec {outcome : Except RedisError Bool} (hstep : LockStep calls s (.enter c outcome) s') :
    s.phase c = .new ∧ s'.phase c = afterEnter outcome ∧
      ∃ link, outcome = (Redis.send link (calls c).acquire s.store).2 ∧
        s'.store = (Redis.send link (calls c).acquire s.store).1 := by
  cases hstep with
  | enter link hnew => exact ⟨hnew, Function.update_self _ _ _, link, rfl, rfl⟩

theorem leave_spec (hstep : LockStep calls s (.leave c) s') :
    s'.store = s.store ∧ ∃ acquired, s.phase c = .inside acquired ∧ s'.phase c = .exited acquired := by
  cases hstep with
  | leave hinside => exact ⟨rfl, _, hinside, Function.update_self _ _ _⟩

theorem request_spec (hstep : LockStep calls s (.request c) s') :
    s'.phase = s.phase ∧ (s.phase c = .failed ∨ s.phase c = .exited true) := by
  cases hstep with
  | acquire hfailed => exact ⟨rfl, .inl hfailed⟩
  | release hexited => exact ⟨rfl, .inr hexited⟩

/-! ## The invariant -/

/-- What a step does to the key of a context that keeps the lease. -/
theorem held_step (htoken : ∀ c c', (calls c).uuid4 = (calls c').uuid4 → c = c')
    (hstep : LockStep calls s e s') (hexpire : e ≠ .expire (calls c).fullKey)
    (hrequest : e ≠ .request c) (h : s.store (calls c).fullKey = some (calls c).token) :
    s'.store (calls c).fullKey = some (calls c).token := by
  cases hstep with
  | enter link hnew => exact LockCall.send_acquire_of_some h
  | leave hinside => exact h
  | acquire hfailed => exact LockCall.acquire_of_some h
  | @release c' hexited =>
    refine LockCall.release_of_ne h fun heq => hrequest ?_
    rw [htoken c c' (LockCall.token_inj heq)]
  | @expire key hkey =>
    have hne : (calls c).fullKey ≠ key := fun heq => hexpire (congrArg LockEvent.expire heq.symm)
    exact (erase_of_ne hne).trans h

/-- While a context has the lease, its key holds its token. -/
theorem held_run {s₀ : LockState C} (htoken : ∀ c c', (calls c).uuid4 = (calls c').uuid4 → c = c')
    (h : Transition.Run (LockStep calls) s₀ tr s) :
    ∀ c, Lease calls tr c → s.store (calls c).fullKey = some (calls c).token := by
  refine h.rec_inv (fun tr s => ∀ c, Lease calls tr c →
    s.store (calls c).fullKey = some (calls c).token) ?_ ?_
  · rintro c ⟨tr₁, tr₂, htr, -⟩
    simp at htr
  · intro tr s e s' _ hheld hstep c hlease
    rcases lease_append.1 hlease with rfl | ⟨hlease, hexpire, hrequest⟩
    · obtain ⟨-, -, link, houtcome, hstore⟩ := enter_spec hstep
      rw [hstore]
      exact LockCall.send_acquire_true houtcome.symm
    · exact held_step htoken hstep hexpire hrequest (hheld c hlease)

/-! ## Contexts that were refused -/

/-- The context was told that another one has the lock. -/
def LockState.Refused (s : LockState C) (c : C) : Prop :=
  s.phase c = .inside false ∨ s.phase c = .exited false

/-- An event of a context leaves it no longer new. -/
theorem phase_ne_new (hstep : LockStep calls s e s') (hc : e.context? = some c) :
    s'.phase c ≠ .new := by
  cases e with
  | enter c' outcome =>
    obtain rfl := Option.some.inj hc
    rw [(enter_spec hstep).2.1]
    cases outcome <;> simp [afterEnter]
  | leave c' =>
    obtain rfl := Option.some.inj hc
    obtain ⟨-, acquired, -, hexited⟩ := leave_spec hstep
    simp [hexited]
  | request c' =>
    obtain rfl := Option.some.inj hc
    obtain ⟨hsame, hphase⟩ := request_spec hstep
    rw [hsame]
    rcases hphase with h | h <;> simp [h]
  | expire key => cases hc

theorem refused_step (hstep : LockStep calls s e s') (h : s.Refused c) :
    s'.Refused c ∧ (e.context? = some c → s'.store = s.store) := by
  by_cases hc : e.context? = some c
  · cases e with
    | enter c' outcome =>
      obtain rfl := Option.some.inj hc
      rw [LockState.Refused, (enter_spec hstep).1] at h
      simp at h
    | leave c' =>
      obtain rfl := Option.some.inj hc
      obtain ⟨hstore, acquired, hinside, hexited⟩ := leave_spec hstep
      rw [LockState.Refused, hinside] at h
      simp only [LockPhase.inside.injEq, reduceCtorEq, or_false] at h
      rw [h] at hexited
      exact ⟨.inr hexited, fun _ => hstore⟩
    | request c' =>
      obtain rfl := Option.some.inj hc
      rcases (request_spec hstep).2 with hphase | hphase
      · simp [LockState.Refused, hphase] at h
      · simp [LockState.Refused, hphase] at h
    | expire key => cases hc
  · refine ⟨?_, fun hc' => absurd hc' hc⟩
    rw [LockState.Refused, phase_of_ne hstep hc]
    exact h

theorem refused_run (h : Transition.Run (LockStep calls) s tr s')
    (hmem : .enter c (.ok false) ∈ tr) : s'.Refused c := by
  obtain ⟨tr₁, tr₂, m, m', -, -, hstep, hrest⟩ := h.exists_step_of_mem hmem
  refine hrest.state_inv (fun m => m.Refused c) ?_ fun _ _ _ hm hstep => (refused_step hstep hm).1
  exact .inl (enter_spec hstep).2.1

/-- No step of a context that is refused, now or later, changes the store. -/
theorem store_of_refused {tr₂ : List (LockEvent C)} {s₀ s₁ : LockState C}
    (h₁ : Transition.Run (LockStep calls) s₀ tr s) (hstep : LockStep calls s e s₁)
    (h₂ : Transition.Run (LockStep calls) s₁ tr₂ s') (hc : e.context? = some c)
    (hmem : .enter c (.ok false) ∈ tr ++ e :: tr₂) : s₁.store = s.store := by
  rcases List.mem_append.1 hmem with hbefore | hrest
  · exact (refused_step hstep (refused_run h₁ hbefore)).2 hc
  · rcases List.mem_cons.1 hrest with rfl | hlater
    · obtain ⟨-, -, link, houtcome, hstore⟩ := enter_spec hstep
      rw [hstore]
      exact LockCall.send_acquire_false houtcome.symm
    · exfalso
      obtain ⟨tr₃, tr₄, m, m', -, hrun, henter, -⟩ := h₂.exists_step_of_mem hlater
      have hphase : m.phase c ≠ .new := by
        refine hrun.state_inv (fun m => m.phase c ≠ .new) (phase_ne_new hstep hc) ?_
        intro n e n' hn hstep
        by_cases hc' : e.context? = some c
        · exact phase_ne_new hstep hc'
        · rwa [phase_of_ne hstep hc']
      exact hphase (enter_spec henter).1

/-- In every run of contexts whose tokens are distinct: at most one of those with the same name has
the lease; leaving a context, and its release whenever it is executed, leave the lease and the stored
token of every other context; and a context that was refused never changes the store. -/
theorem lock_safe {s₀ : LockState C} (htoken : ∀ c c', (calls c).uuid4 = (calls c').uuid4 → c = c')
    (h : Transition.Run (LockStep calls) s₀ tr s) :
    (∀ c c', Lease calls tr c → Lease calls tr c' → (calls c).fullKey = (calls c').fullKey → c = c') ∧
    (∀ e s' c c', LockStep calls s e s' → e = .leave c' ∨ e = .request c' → c ≠ c' →
      Lease calls tr c →
        Lease calls (tr ++ [e]) c ∧ s'.store (calls c).fullKey = some (calls c).token) ∧
    (∀ tr₁ e tr₂ s₁ s₂ c, Transition.Run (LockStep calls) s₀ tr₁ s₁ → LockStep calls s₁ e s₂ →
      Transition.Run (LockStep calls) s₂ tr₂ s → e.context? = some c →
      .enter c (.ok false) ∈ tr₁ ++ e :: tr₂ → s₂.store = s₁.store) := by
  refine ⟨fun c c' hc hc' hkey => ?_, fun e s' c c' hstep he hne hlease => ?_,
    fun tr₁ e tr₂ s₁ s₂ c h₁ hstep h₂ => store_of_refused h₁ hstep h₂⟩
  · have hheld := held_run htoken h c hc
    rw [hkey, held_run htoken h c' hc'] at hheld
    exact htoken c c' (LockCall.token_inj (Option.some.inj hheld).symm)
  · have hexpire : e ≠ .expire (calls c).fullKey := by
      rintro rfl
      simp at he
    have hrequest : e ≠ .request c := by
      rintro rfl
      simp only [reduceCtorEq, LockEvent.request.injEq, false_or] at he
      exact hne he
    have hlater : Lease calls (tr ++ [e]) c := lease_append.2 (.inr ⟨hlease, hexpire, hrequest⟩)
    exact ⟨hlater, held_run htoken (h.snoc hstep) c hlater⟩

/-! ## Enabled events -/

section Enabled

variable (calls) (hnew : s.phase c = .new) (httl : 0 < (calls c).ttl)
include hnew httl

/-- A context that finds its key free acquires the lock. -/
theorem exists_acquired (hfree : s.store (calls c).fullKey = none) :
    ∃ s', LockStep calls s (.enter c (.ok true)) s' ∧
      s'.store (calls c).fullKey = some (calls c).token ∧
      s'.phase = Function.update s.phase c (.inside true) := by
  have hanswer : (Redis.send .up (calls c).acquire s.store).2 = .ok true := by
    change (Redis.setNx _ _ _ _).2 = _
    rw [Redis.setNx, if_neg (not_le.2 httl), putNew_of_none hfree]
  have hstep : LockStep calls s _ _ := .enter .up hnew
  rw [hanswer] at hstep
  exact ⟨_, hstep, LockCall.send_acquire_true hanswer, rfl⟩

/-- A context that finds its key taken is refused. -/
theorem exists_refused {value : Bytes} (htaken : s.store (calls c).fullKey = some value) :
    ∃ s', LockStep calls s (.enter c (.ok false)) s' ∧ s'.store = s.store ∧
      s'.phase = Function.update s.phase c (.inside false) := by
  have hanswer : (Redis.send .up (calls c).acquire s.store).2 = .ok false := by
    change (Redis.setNx _ _ _ _).2 = _
    rw [Redis.setNx, if_neg (not_le.2 httl), putNew_of_some htaken]
  have hstep : LockStep calls s _ _ := .enter .up hnew
  rw [hanswer] at hstep
  exact ⟨_, hstep, LockCall.send_acquire_false hanswer, rfl⟩

end Enabled

end

/-- Context `0` acquires the lock and context `1` is refused and leaves.  The lease of `0` expires,
context `2` acquires the lock, and then `0` leaves and its release is executed. -/
theorem lock_safe_late_release :
    let calls : Fin 3 → LockCall := fun c =>
      ⟨⟨"test", by decide⟩, "process", 10, ⟨(c.val : BitVec 128)⟩⟩
    let tr : List (LockEvent (Fin 3)) := [.enter 0 (.ok true), .enter 1 (.ok false), .leave 1,
      .expire (calls 0).fullKey, .enter 2 (.ok true), .leave 0]
    ∃ s s', Transition.Run (LockStep calls) ⟨fun _ => none, fun _ => .new⟩ tr s ∧
      LockStep calls s (.request 0) s' ∧ (∀ c, Lease calls tr c → c = 2) ∧
      Lease calls (tr ++ [.request 0]) 2 ∧ s'.store (calls 2).fullKey = some (calls 2).token := by
  intro calls tr
  have htoken : ∀ c c', (calls c).uuid4 = (calls c').uuid4 → c = c' := by decide
  have hkey : ∀ c, (calls c).fullKey = (calls 2).fullKey := fun _ => rfl
  let s₀ : LockState (Fin 3) := ⟨fun _ => none, fun _ => .new⟩
  obtain ⟨s₁, h₁, hstore₁, hphase₁⟩ := exists_acquired calls (s := s₀) (c := 0) rfl (by decide) rfl
  obtain ⟨s₂, h₂, hstore₂, hphase₂⟩ := exists_refused calls (s := s₁) (c := 1)
    (by rw [hphase₁]; rfl) (by decide) hstore₁
  rw [hphase₁] at hphase₂
  let s₃ : LockState (Fin 3) := ⟨s₂.store, Function.update s₂.phase 1 (.exited false)⟩
  let s₄ : LockState (Fin 3) := ⟨erase (calls 0).fullKey s₂.store, s₃.phase⟩
  have h₃ : LockStep calls s₂ (.leave 1) s₃ := .leave (by rw [hphase₂]; rfl)
  have hstored : s₃.store (calls 0).fullKey ≠ none := by
    show s₂.store _ ≠ none
    rw [hstore₂, hstore₁]
    exact Option.some_ne_none _
  have h₄ : LockStep calls s₃ (.expire (calls 0).fullKey) s₄ := .expire hstored
  have hphase₄ : s₄.phase = Function.update s₂.phase 1 (.exited false) := rfl
  rw [hphase₂] at hphase₄
  have hfree : s₄.store (calls 2).fullKey = none := by
    rw [← hkey 0]
    show erase (calls 0).fullKey s₂.store (calls 0).fullKey = none
    exact erase_self
  obtain ⟨s₅, h₅, hstore₅, hphase₅⟩ := exists_acquired calls (s := s₄) (c := 2)
    (by rw [hphase₄]; rfl) (by decide) hfree
  rw [hphase₄] at hphase₅
  let s₆ : LockState (Fin 3) := ⟨s₅.store, Function.update s₅.phase 0 (.exited true)⟩
  have h₆ : LockStep calls s₅ (.leave 0) s₆ := .leave (by rw [hphase₅]; rfl)
  have h₇ : LockStep calls s₆ (.request 0) ⟨((calls 0).release s₆.store).1, s₆.phase⟩ :=
    .release rfl
  have hrun : Transition.Run (LockStep calls) s₀ tr s₆ :=
    .cons h₁ <| .cons h₂ <| .cons h₃ <| .cons h₄ <| .cons h₅ <| .single h₆
  have hlease : Lease calls tr 2 :=
    ⟨[.enter 0 (.ok true), .enter 1 (.ok false), .leave 1, .expire (calls 0).fullKey], [.leave 0], rfl,
      by simp, by simp⟩
  obtain ⟨hunique, hother, -⟩ := lock_safe htoken hrun
  obtain ⟨hlater, hheld⟩ := hother _ _ 2 0 h₇ (.inr rfl) (by decide) hlease
  exact ⟨s₆, _, hrun, h₇, fun c hc => hunique c 2 hc hlease (hkey c), hlater, hheld⟩

end Ipa
