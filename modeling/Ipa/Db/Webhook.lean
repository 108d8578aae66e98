import Ipa.Db.Base
import Ipa.Lib.Listing
import Ipa.Lib.RowCalls

/-!
# Webhooks and their deliveries

Sessions register webhooks, record delivery attempts and report their outcomes, concurrently
(`WebhookSessions`).  `complete_delivery` does not look at the status that it replaces.

* `delivery_outcome`: a delivery is what was recorded with the last outcome that was reported, in the
  order in which the reports commit.
* `delivered_at_iff`: a delivery has a time exactly when its status is `delivered`.
* `delivery_webhook`: a session that sees a delivery sees its webhook.
* `list_active_grows`: a webhook that has been listed is listed for ever, by creation time.
-/

namespace Ipa

open Listing ReadCommitted Transition

/-- Delivery state of a single webhook attempt record. -/
inductive WebhookDeliveryStatus
  | pending | delivered | failed
deriving DecidableEq, Repr

/-- A row of `webhooks`; the DTO that the repository returns has the same fields. -/
structure Webhook where
  id : UUID
  url : String
  secret : String
  events : List String
  isActive : Bool
  createdAt : Timestamp
  updatedAt : Timestamp

/-- A row of `webhook_deliveries`; the DTO that the repository returns has the same fields. -/
structure WebhookDelivery where
  id : ℤ
  webhookId : UUID
  eventType : String
  payload : Option JsonObject
  status : WebhookDeliveryStatus
  attempt : ℤ
  responseStatus : Option ℤ
  error : Option String
  createdAt : Timestamp
  deliveredAt : Option Timestamp

/-- The primary key of a row of one of the two tables. -/
inductive WebhookKey
  | webhook (id : UUID)
  | delivery (id : ℤ)
deriving DecidableEq

/-- A row of one of the two tables. -/
inductive WebhookRow
  | webhook (row : Webhook)
  | delivery (row : WebhookDelivery)

/-- The primary key of a row. -/
def WebhookRow.key : WebhookRow → WebhookKey
  | webhook row => .webhook row.id
  | delivery row => .delivery row.id

/-- What `complete_delivery` is called with; `utcnow` is the clock of the worker. -/
structure DeliveryOutcome where
  status : WebhookDeliveryStatus
  responseStatus : Option ℤ
  error : Option String
  utcnow : Timestamp

/-- The calls that write.  `now` is the start of the transaction. -/
inductive WebhookCommand
  | create (url secret : String) (events : List String) (now : Timestamp)
  | recordDelivery (webhookId : UUID) (eventType : String) (payload : Option JsonObject) (attempt : ℤ)
      (now : Timestamp)
  | completeDelivery (outcome : DeliveryOutcome)

namespace WebhookRepository

/-- The row that `record_delivery` inserts. -/
def newDelivery (id : ℤ) (webhookId : UUID) (eventType : String) (payload : Option JsonObject)
    (attempt : ℤ) (now : Timestamp) : WebhookDelivery where
  id := id
  webhookId := webhookId
  eventType := eventType
  payload := payload
  status := .pending
  attempt := attempt
  responseStatus := none
  error := none
  createdAt := now
  deliveredAt := none

/-- The row that `complete_delivery` writes. -/
def complete (outcome : DeliveryOutcome) (row : WebhookDelivery) : WebhookDelivery :=
  { row with
    status := outcome.status
    responseStatus := outcome.responseStatus
    error := outcome.error
    deliveredAt := if outcome.status = .delivered then some outcome.utcnow else none }

/-- What the call does on the row of its key.  The key of a new delivery is the next number of the
sequence. -/
def onRow : WebhookKey → WebhookCommand → Option WebhookRow → Outcome WebhookRow DbError
  | .webhook id, .create url secret events now, none =>
    .write (.webhook ⟨id, url, secret, events, true, now, now⟩)
  | .webhook _, .create .., some _ => .raise .uniqueViolation
  | .delivery id, .recordDelivery webhookId eventType payload attempt now, none =>
    if IsInt4 attempt then .write (.delivery (newDelivery id webhookId eventType payload attempt now))
    else .raise .integerOutOfRange
  | .delivery _, .recordDelivery .., some _ => .raise .uniqueViolation
  | .delivery _, .completeDelivery outcome, some (.delivery row) =>
    if outcome.responseStatus.all (IsInt4 ·) then .write (.delivery (complete outcome row))
    else .raise .integerOutOfRange
  | _, _, _ => .miss

/-- A delivery of a webhook that its session does not see. -/
def foreign : WebhookKey → WebhookCommand → (WebhookKey → Option WebhookRow) → Option DbError
  | _, .recordDelivery webhookId .., visible =>
    if (visible (.webhook webhookId)).isNone then some .foreignKeyViolation else none
  | _, _, _ => none

/-- The calls of the repository as statements; the primary keys are the only unique columns. -/
def statements : Statements WebhookKey WebhookRow WebhookCommand WebhookKey DbError where
  onRow := onRow
  index := WebhookRow.key
  clash _ _ := .uniqueViolation
  foreign := foreign

end WebhookRepository

/-- The rows of the two tables. -/
abbrev WebhookStore := Table WebhookRow.key

/-- Sessions on the two tables. -/
abbrev WebhookSessions (T : Type*) := RowSessions T WebhookKey WebhookRow WebhookCommand

/-- What the sessions do. -/
abbrev WebhookEvent (T : Type*) := RowEvent T WebhookKey WebhookRow WebhookCommand DbError

namespace WebhookSessions

variable {T : Type*} [DecidableEq T]

/-- The events `tr` lead from the tables `store` to the state `s`. -/
abbrev Reached (store : WebhookStore) (tr : List (WebhookEvent T)) (s : WebhookSessions T) : Prop :=
  Run (RowSessions.Step WebhookRepository.statements) (RowSessions.init store) tr s

/-! ### The queries -/

/-- `get`. -/
def get (s : WebhookSessions T) (t : T) (webhookId : UUID) : Option Webhook :=
  (s.visible t (.webhook webhookId)).bind fun
    | .webhook row => some row
    | .delivery _ => none

/-- The delivery that a session sees. -/
def getDelivery (s : WebhookSessions T) (t : T) (deliveryId : ℤ) : Option WebhookDelivery :=
  (s.visible t (.delivery deliveryId)).bind fun
    | .delivery row => some row
    | .webhook _ => none

/-- `list_active`: webhooks created at one time stand in any order. -/
def ListsActive (s : WebhookSessions T) (t : T) (rows : List Webhook) : Prop :=
  rows.Perm ((s.select t).filterMap fun
    | .webhook row => if row.isActive then some row else none
    | .delivery _ => none) ∧
  rows.Pairwise fun row row' => row.createdAt ≤ row'.createdAt

variable {store : WebhookStore} {s s' : WebhookSessions T} {tr tr' : List (WebhookEvent T)} {t : T}
  {k : WebhookKey} {u : WebhookCommand} {v v' : WebhookRow} {id : ℤ}
  {entries : List (WebhookCommand × WebhookRow)} {row : WebhookDelivery}

/-! ## What a call writes -/

/-- A call that writes registers a webhook, records a delivery or reports its outcome. -/
inductive Writes : WebhookKey → WebhookCommand → Option WebhookRow → WebhookRow → Prop
  | create (id : UUID) (url secret : String) (events : List String) (now : Timestamp) :
    Writes (.webhook id) (.create url secret events now) none
      (.webhook ⟨id, url, secret, events, true, now, now⟩)
  | recordDelivery (id : ℤ) (webhookId : UUID) (eventType : String) (payload : Option JsonObject)
      (attempt : ℤ) (now : Timestamp) :
    Writes (.delivery id) (.recordDelivery webhookId eventType payload attempt now) none
      (.delivery (WebhookRepository.newDelivery id webhookId eventType payload attempt now))
  | completeDelivery (id : ℤ) (outcome : DeliveryOutcome) (row : WebhookDelivery) :
    Writes (.delivery id) (.completeDelivery outcome) (some (.delivery row))
      (.delivery (WebhookRepository.complete outcome row))

theorem writes_of_onRow {v : Option WebhookRow} (h : WebhookRepository.onRow k u v = .write v') :
    Writes k u v v' := by
  unfold WebhookRepository.onRow at h
  split at h
  · obtain rfl := Outcome.write.inj h
    exact .create ..
  · cases h
  · split_ifs at h with hrange
    obtain rfl := Outcome.write.inj h
    exact .recordDelivery ..
  · cases h
  · split_ifs at h with hrange
    obtain rfl := Outcome.write.inj h
    exact .completeDelivery ..
  · cases h

theorem inv_of_reached (h : Reached store tr s) :
    RowSessions.Inv WebhookRepository.statements store.lookup tr s :=
  RowSessions.inv_run store.nodup h

/-! ### A delivery that two sessions report -/

/-- The first webhook. -/
def sampleWebhook : Webhook := ⟨⟨7⟩, "https://a", "secret", ["completed"], true, 0, 0⟩

/-- The outcome that the first session reports. -/
def delivered : DeliveryOutcome := ⟨.delivered, some 200, none, 5⟩

/-- The outcome that the second session reports. -/
def failed : DeliveryOutcome := ⟨.failed, some 500, some "late", 6⟩

/-- The first session registers the webhook and records and reports the delivery, which the second one
reports again. -/
def sampleCalls : List (RowCall Bool WebhookKey WebhookCommand) :=
  [.statement true (.webhook sampleWebhook.id) (.create "https://a" "secret" ["completed"] 0),
    .statement true (.delivery 1) (.recordDelivery sampleWebhook.id "completed" none 1 0),
    .statement true (.delivery 1) (.completeDelivery delivered), .commit true,
    .statement false (.delivery 1) (.completeDelivery failed), .commit false]

theorem isSome_sampleCalls : ((RowSessions.init (Table.empty WebhookRow.key)).play
    WebhookRepository.statements sampleCalls).isSome := by
  decide +kernel

/-- What these calls lead to. -/
def samplePlayed : List (WebhookEvent Bool) × WebhookSessions Bool :=
  ((RowSessions.init (Table.empty WebhookRow.key)).play WebhookRepository.statements sampleCalls).get
    isSome_sampleCalls

theorem reached_samplePlayed : Reached (Table.empty _) samplePlayed.1 samplePlayed.2 :=
  RowSessions.exists_run_play (Table.empty WebhookRow.key).nodup isSome_sampleCalls

/-- The second session registers a webhook and commits, and the first one registers another one. -/
def laterCalls : List (RowCall Bool WebhookKey WebhookCommand) :=
  [.statement false (.webhook ⟨8⟩) (.create "https://b" "secret" [] 3), .commit false,
    .statement true (.webhook ⟨9⟩) (.create "https://c" "secret" [] 4)]

theorem isSome_laterCalls :
    (samplePlayed.2.play WebhookRepository.statements laterCalls).isSome := by
  decide +kernel

/-- What these calls lead to. -/
def laterPlayed : List (WebhookEvent Bool) × WebhookSessions Bool :=
  (samplePlayed.2.play WebhookRepository.statements laterCalls).get isSome_laterCalls

theorem run_laterPlayed : Run (RowSessions.Step WebhookRepository.statements) samplePlayed.2
    laterPlayed.1 laterPlayed.2 :=
  RowSessions.run_play (inv_of_reached reached_samplePlayed)
    (Option.some_get isSome_laterCalls).symm

/-- A row stands under its key. -/
theorem key_of_visible (h : Reached store tr s) (hv : s.visible t k = some v) : v.key = k := by
  refine (inv_of_reached h).visible_inv (P := fun v => v.key = k) t k ?_ ?_ v hv
  · exact fun v hv => store.key_of_lookup hv
  · intro u v v' hkey hwrite
    cases writes_of_onRow hwrite with
    | create => rfl
    | recordDelivery => rfl
    | completeDelivery id outcome row => exact hkey (.delivery row) rfl

theorem getDelivery_eq_some_iff (h : Reached store tr s) :
    s.getDelivery t id = some row ↔ s.visible t (.delivery id) = some (.delivery row) := by
  unfold getDelivery
  cases hv : s.visible t (.delivery id) with
  | none => simp
  | some v =>
    cases v with
    | delivery row' => simp
    | webhook row' => cases key_of_visible h hv

/-! ## The outcome of a delivery -/

/-- The outcomes that the entries of a delivery report. -/
def outcomes (entries : List (WebhookCommand × WebhookRow)) : List DeliveryOutcome :=
  entries.filterMap fun
    | (.completeDelivery outcome, _) => some outcome
    | _ => none

/-- The rows that `record_delivery` has returned. -/
def recorded (entries : List (WebhookCommand × WebhookRow)) : List WebhookDelivery :=
  entries.filterMap fun
    | (.recordDelivery .., .delivery row) => some row
    | _ => none

/-- The rows of the delivery `id` that were there at first or were recorded since. -/
def originals (store : WebhookStore) (entries : List (WebhookCommand × WebhookRow)) (id : ℤ) :
    List WebhookDelivery :=
  ((store.lookup (.delivery id)).toList.filterMap fun
    | .delivery row => some row
    | .webhook _ => none) ++ recorded entries

/-- The reports of `reported` on the delivery `first`. -/
def reports (first : WebhookDelivery) (reported : List DeliveryOutcome) :
    List (WebhookCommand × WebhookRow) :=
  reported.map fun outcome => (.completeDelivery outcome, .delivery (WebhookRepository.complete outcome first))

/-- The delivery with the last outcome. -/
def lastOutcome (first : WebhookDelivery) (reported : List DeliveryOutcome) : WebhookDelivery :=
  reported.getLast?.elim first fun outcome => WebhookRepository.complete outcome first

theorem outcomes_reports (first : WebhookDelivery) (reported : List DeliveryOutcome) :
    outcomes (reports first reported) = reported := by
  rw [outcomes, reports, List.filterMap_map]
  exact List.filterMap_some

theorem recorded_reports (first : WebhookDelivery) (reported : List DeliveryOutcome) :
    recorded (reports first reported) = [] := by
  rw [recorded, reports, List.filterMap_map]
  exact List.filterMap_none ..

/-- A report replaces the outcome that another one has left. -/
theorem complete_lastOutcome (first : WebhookDelivery) (reported : List DeliveryOutcome)
    (outcome : DeliveryOutcome) : WebhookRepository.complete outcome (lastOutcome first reported) =
      WebhookRepository.complete outcome first := by
  unfold lastOutcome
  cases reported.getLast? <;> rfl

/-- Once a delivery is there its entries are reports, each on what was recorded. -/
theorem reports_of_chain {first : WebhookDelivery}
    (h : Chain (WebhookRepository.onRow (.delivery id)) (some (.delivery first)) entries) :
    ∃ reported, entries = reports first reported ∧
      leaves (some (.delivery first)) entries = some (.delivery (lastOutcome first reported)) := by
  induction entries using List.reverseRecOn with
  | nil => exact ⟨[], rfl, rfl⟩
  | append_singleton entries e ih =>
    obtain ⟨u, v⟩ := e
    obtain ⟨hchain, hwrite⟩ := chain_snoc.1 h
    obtain ⟨reported, rfl, hleaves⟩ := ih hchain
    rw [hleaves] at hwrite
    cases writes_of_onRow hwrite with
    | completeDelivery id outcome row =>
      refine ⟨reported ++ [outcome], ?_, ?_⟩
      · rw [complete_lastOutcome, reports, reports, List.map_append]
        rfl
      · rw [leaves_append, leaves_cons, leaves_nil, complete_lastOutcome, lastOutcome,
          List.getLast?_concat]
        rfl

/-- The delivery that a session sees is what was recorded, once, with the outcome that was reported last,
in the order in which the reports commit; an outcome that was final is replaced as any other. -/
theorem delivery_outcome (h : Reached store tr s) (t : T) (id : ℤ) (row : WebhookDelivery)
    (hrow : s.getDelivery t id = some row) :
    ∃ first, originals store (RowSessions.history tr s t (.delivery id)) id = [first] ∧
      row = lastOutcome first (outcomes (RowSessions.history tr s t (.delivery id))) := by
  obtain ⟨hchain, hvisible⟩ := (inv_of_reached h).chain_visible t (.delivery id)
  rw [(getDelivery_eq_some_iff h).1 hrow] at hvisible
  change Chain (WebhookRepository.onRow (.delivery id)) _ (RowSessions.history tr s t (.delivery id)) at hchain
  change _ = leaves _ (RowSessions.history tr s t (.delivery id)) at hvisible
  cases hfirst : store.lookup (.delivery id) with
  | some v =>
    cases v with
    | webhook row' => cases store.key_of_lookup hfirst
    | delivery first =>
      rw [hfirst] at hchain hvisible
      obtain ⟨reported, hentries, hleaves⟩ := reports_of_chain hchain
      refine ⟨first, ?_, ?_⟩
      · rw [originals, hfirst, hentries, recorded_reports]
        rfl
      · rw [hleaves] at hvisible
        cases hvisible
        rw [hentries, outcomes_reports]
  | none =>
    rw [hfirst] at hchain hvisible
    cases hentries : RowSessions.history tr s t (.delivery id) with
    | nil =>
      rw [hentries] at hvisible
      cases hvisible
    | cons e entries =>
      obtain ⟨u, v⟩ := e
      rw [hentries] at hchain hvisible
      cases writes_of_onRow hchain.1 with
      | recordDelivery _ webhookId eventType payload attempt now =>
        let first := WebhookRepository.newDelivery id webhookId eventType payload attempt now
        obtain ⟨reported, hreports, hleaves⟩ := reports_of_chain hchain.2
        have hrecorded := recorded_reports first reported
        have houtcomes := outcomes_reports first reported
        rw [← hreports] at hrecorded houtcomes
        refine ⟨first, ?_, ?_⟩
        · rw [originals, hfirst]
          exact congrArg (first :: ·) hrecorded
        · rw [leaves_cons, hleaves] at hvisible
          cases hvisible
          exact congrArg (lastOutcome first) houtcomes.symm

theorem delivery_outcome_sample : ∃ (tr : List (WebhookEvent Bool)) (s : WebhookSessions Bool),
    Reached (Table.empty _) tr s ∧
    outcomes (RowSessions.history tr s false (.delivery 1)) = [delivered, failed] ∧
    ∃ row first, s.getDelivery false 1 = some row ∧
      originals (Table.empty _) (RowSessions.history tr s false (.delivery 1)) 1 = [first] ∧
      row = lastOutcome first [delivered, failed] := by
  obtain ⟨row, hrow⟩ : ∃ row, samplePlayed.2.getDelivery false 1 = some row := ⟨_, rfl⟩
  obtain ⟨first, horiginal, hlast⟩ := delivery_outcome reached_samplePlayed false 1 row hrow
  have houtcomes : outcomes (RowSessions.history samplePlayed.1 samplePlayed.2 false (.delivery 1)) =
    [delivered, failed] := rfl
  rw [houtcomes] at hlast
  exact ⟨_, _, reached_samplePlayed, houtcomes, row, first, hrow, horiginal, hlast⟩

/-- In every run a delivery has the time of its delivery exactly when its status is `delivered`. -/
theorem delivered_at_iff (hstore : ∀ row, WebhookRow.delivery row ∈ store.rows →
      (row.deliveredAt ≠ none ↔ row.status = .delivered)) (h : Reached store tr s) (t : T) (id : ℤ)
    (row : WebhookDelivery) (hrow : s.getDelivery t id = some row) :
    row.deliveredAt ≠ none ↔ row.status = .delivered := by
  let P : WebhookRow → Prop
    | .webhook _ => True
    | .delivery row => row.deliveredAt ≠ none ↔ row.status = .delivered
  refine (inv_of_reached h).visible_inv (P := P) t (.delivery id) ?_ ?_ _
    ((getDelivery_eq_some_iff h).1 hrow)
  · intro v hv
    cases v with
    | webhook => trivial
    | delivery first => exact hstore first (store.mem_of_lookup hv)
  · intro u v v' _ hwrite
    cases writes_of_onRow hwrite with
    | recordDelivery => exact iff_of_false (fun h => h rfl) nofun
    | completeDelivery _ outcome row =>
      dsimp only [P, WebhookRepository.complete]
      split_ifs with hstatus
      · exact iff_of_true (Option.some_ne_none _) hstatus
      · exact iff_of_false (fun h => h rfl) hstatus

theorem delivered_at_iff_sample : ∃ (tr : List (WebhookEvent Bool)) (s : WebhookSessions Bool)
    (row : WebhookDelivery), Reached (Table.empty _) tr s ∧ s.getDelivery true 1 = some row ∧
      row.status = .failed ∧ (row.deliveredAt ≠ none ↔ row.status = .delivered) := by
  obtain ⟨row, hrow, hstatus⟩ : ∃ row, samplePlayed.2.getDelivery true 1 = some row ∧
    row.status = .failed := ⟨_, rfl, rfl⟩
  have hstore : ∀ row, WebhookRow.delivery row ∈ (Table.empty WebhookRow.key).rows →
      (row.deliveredAt ≠ none ↔ row.status = .delivered) :=
    fun row hrow => absurd hrow List.not_mem_nil
  exact ⟨_, _, row, reached_samplePlayed, hrow, hstatus,
    delivered_at_iff hstore reached_samplePlayed true 1 row hrow⟩

/-! ## Deliveries and their webhooks -/

/-- A delivery refers to its webhook. -/
def webhookOf : WebhookRow → Option WebhookKey
  | .webhook _ => none
  | .delivery row => some (.webhook row.webhookId)

/-- In every run a session that sees a delivery sees the webhook that it was recorded for. -/
theorem delivery_webhook (hstore : ∀ row, WebhookRow.delivery row ∈ store.rows →
      ∃ webhook, WebhookRow.webhook webhook ∈ store.rows ∧ webhook.id = row.webhookId)
    (h : Reached store tr s) (t : T) (id : ℤ) (row : WebhookDelivery)
    (hrow : s.getDelivery t id = some row) : ∃ webhook, s.get t row.webhookId = some webhook := by
  have hrefs : RowSessions.Refs webhookOf (fun _ _ => True) s := by
    refine RowSessions.refs_run (G := fun _ _ => True) store.nodup (fun _ _ _ _ _ _ _ => trivial) ?_ ?_
      (h.mono fun _ _ _ hstep => ⟨hstep, trivial⟩)
    · intro v hv k' hk'
      cases v with
      | webhook => cases hk'
      | delivery first =>
        obtain ⟨webhook, hwebhook, hid⟩ := hstore first hv
        obtain rfl := Option.some.inj hk'
        refine ⟨.webhook webhook, ?_, trivial⟩
        rw [← hid]
        exact store.lookup_key hwebhook
    · intro tr s e s' hinv hrefs hstep _
      cases hstep with
      | @write t k u v w hactive hfree hwrite hindex hforeign =>
        intro k' hk'
        generalize hprevious : s.visible t k = previous at hwrite
        cases writes_of_onRow hwrite with
        | create => cases hk'
        | completeDelivery id outcome row => exact hrefs.visible t _ _ _ hprevious hk'
        | recordDelivery id webhookId eventType payload attempt now =>
          obtain rfl := Option.some.inj hk'
          change (if (s.visible t (.webhook webhookId)).isNone then _ else none) = none at hforeign
          cases hv : s.visible t (.webhook webhookId) with
          | some v => exact ⟨v, hv, trivial⟩
          | none =>
            rw [hv] at hforeign
            cases hforeign
      | _ => trivial
  obtain ⟨v, hv, -⟩ := hrefs.visible t _ _ _ ((getDelivery_eq_some_iff h).1 hrow) rfl
  cases v with
  | delivery => cases key_of_visible h hv
  | webhook webhook =>
    refine ⟨webhook, ?_⟩
    rw [get, hv]
    rfl

theorem delivery_webhook_sample : ∃ (tr : List (WebhookEvent Bool)) (s : WebhookSessions Bool)
    (row : WebhookDelivery), Reached (Table.empty _) tr s ∧ s.getDelivery false 1 = some row ∧
      ∃ webhook, s.get false row.webhookId = some webhook := by
  obtain ⟨row, hrow⟩ : ∃ row, samplePlayed.2.getDelivery false 1 = some row := ⟨_, rfl⟩
  have hstore : ∀ row, WebhookRow.delivery row ∈ (Table.empty WebhookRow.key).rows →
      ∃ webhook, WebhookRow.webhook webhook ∈ (Table.empty WebhookRow.key).rows ∧
        webhook.id = row.webhookId :=
    fun row hrow => absurd hrow List.not_mem_nil
  exact ⟨_, _, row, reached_samplePlayed, hrow,
    delivery_webhook hstore reached_samplePlayed false 1 row hrow⟩

/-! ## The active webhooks -/

theorem mem_active_iff {t : T} {webhook : Webhook} :
    (webhook ∈ (s.select t).filterMap fun
      | .webhook row => if row.isActive then some row else none
      | .delivery _ => none) ↔ WebhookRow.webhook webhook ∈ s.select t ∧ webhook.isActive := by
  rw [List.mem_filterMap]
  constructor
  · rintro ⟨v, hv, hrow⟩
    cases v with
    | delivery => cases hrow
    | webhook row =>
      dsimp only at hrow
      split_ifs at hrow with hactive
      obtain rfl := Option.some.inj hrow
      exact ⟨hv, hactive⟩
  · rintro ⟨hv, hactive⟩
    exact ⟨_, hv, if_pos hactive⟩

/-- An active webhook that has been committed stands once in every later listing of every session, and
the listings are ordered by the time of creation. -/
theorem list_active_grows (h : Reached store tr s) {webhookId : UUID} {webhook : Webhook}
    (hwebhook : (s.cell (.webhook webhookId)).committed = some (.webhook webhook))
    (hactive : webhook.isActive) (h' : Run (RowSessions.Step WebhookRepository.statements) s tr' s')
    (t : T) (rows : List Webhook) (hrows : s'.ListsActive t rows) :
    webhook ∈ rows ∧ (rows.map Webhook.id).Nodup ∧
      rows.Pairwise fun row row' => row.createdAt ≤ row'.createdAt := by
  have hinv : RowSessions.Inv WebhookRepository.statements store.lookup (tr ++ tr') s' :=
    (inv_of_reached h).run h'
  have hfixed : ∀ u v', WebhookRepository.onRow (.webhook webhookId) u (some (.webhook webhook)) ≠ .write v' := by
    intro u v' hwrite
    cases writes_of_onRow hwrite
  refine ⟨?_, ?_, hrows.2⟩
  · refine hrows.1.mem_iff.2 (mem_active_iff.2 ⟨hinv.mem_select.2 ⟨.webhook webhookId, ?_⟩, hactive⟩)
    exact ((inv_of_reached h).fixed hwebhook hfixed h').1 t
  · refine (hrows.1.map Webhook.id).nodup_iff.2 ?_
    have hselect := hinv.nodup_select t
    rw [List.Nodup, List.pairwise_map] at hselect ⊢
    refine List.Pairwise.filterMap _ ?_ hselect
    intro v v' hne row hrow row' hrow' heq
    cases v with
    | delivery => cases hrow
    | webhook v =>
      cases v' with
      | delivery => cases hrow'
      | webhook v' =>
        dsimp only at hrow hrow'
        split_ifs at hrow with hv
        split_ifs at hrow' with hv'
        obtain rfl := Option.some.inj hrow
        obtain rfl := Option.some.inj hrow'
        exact hne (congrArg WebhookKey.webhook heq)

/-- The second session lists its own webhook after the first one, and not the uncommitted one. -/
theorem list_active_grows_sample : ∃ (tr tr' : List (WebhookEvent Bool)) (s s' : WebhookSessions Bool)
    (webhook : Webhook) (rows : List Webhook), Reached (Table.empty _) tr s ∧
      Run (RowSessions.Step WebhookRepository.statements) s tr' s' ∧
      (s.cell (.webhook ⟨7⟩)).committed = some (.webhook webhook) ∧ s'.ListsActive false rows ∧
      rows.map Webhook.url = ["https://a", "https://b"] ∧ webhook ∈ rows ∧
      (rows.map Webhook.id).Nodup ∧ rows.Pairwise fun row row' => row.createdAt ≤ row'.createdAt := by
  obtain ⟨webhook, hwebhook, hactive⟩ : ∃ webhook,
      (samplePlayed.2.cell (.webhook ⟨7⟩)).committed = some (.webhook webhook) ∧
        webhook.isActive := ⟨_, rfl, rfl⟩
  obtain ⟨rows, hrows, hurls⟩ : ∃ rows, laterPlayed.2.ListsActive false rows ∧
      rows.map Webhook.url = ["https://a", "https://b"] := by
    refine ⟨[sampleWebhook, ⟨⟨8⟩, "https://b", "secret", [], true, 3, 3⟩], ⟨.swap _ _ _, ?_⟩, rfl⟩
    exact .cons (by decide) (List.pairwise_singleton _ _)
  exact ⟨_, _, _, _, webhook, rows, reached_samplePlayed, run_laterPlayed, hwebhook, hrows, hurls,
    list_active_grows reached_samplePlayed hwebhook hactive run_laterPlayed false rows hrows⟩

end WebhookSessions

end Ipa
