import Ipa.Core.Errors
import Ipa.Db.Base
import Ipa.Lib.RowCalls

/-!
# Accounts

Sessions create accounts and look them up by email, concurrently (`UserSessions`).  The column `email`
has the type `citext`: what it compares is the folded text.

* `email_found_iff`: a session finds by an email exactly the account that it sees with it.
* `email_owned`: once an account is committed its email leads to it for ever, in any case of the
  letters, and no other account gets it.
-/

namespace Ipa

open ReadCommitted Transition

/-- Role of a human user of the platform. -/
inductive UserRole
  | admin | reviewer | viewer
deriving DecidableEq, Repr

/-- A row of `users`; the DTO that the repository returns has the same fields. -/
structure User where
  id : UUID
  email : String
  fullName : String
  passwordHash : String
  role : UserRole
  isActive : Bool
  createdAt : Timestamp
  updatedAt : Timestamp

/-- A call of `create`, in a transaction that started at `now`. -/
structure UserCall where
  email : String
  fullName : String
  passwordHash : String
  role : UserRole
  now : Timestamp

namespace UserRepository

/-- The row that `create` inserts. -/
def newUser (id : UUID) (call : UserCall) : User where
  id := id
  email := call.email
  fullName := call.fullName
  passwordHash := call.passwordHash
  role := call.role
  isActive := true
  createdAt := call.now
  updatedAt := call.now

/-- The error that an integrity error of `create` becomes. -/
def emailConflict (call : UserCall) : IpaError := conflictError ("user already exists: " ++ call.email)

/-- What `create` does when it draws the identifier `id`. -/
def onRow (id : UUID) (call : UserCall) : Option User → Outcome User IpaError
  | none => .write (newUser id call)
  | some _ => .raise (emailConflict call)

/-- The calls of the repository as statements. -/
def statements (fold : String → String) : Statements UUID User UserCall String IpaError where
  onRow := onRow
  index user := fold user.email
  clash _ := emailConflict
  foreign _ _ _ := none

end UserRepository

/-- The table `users`. -/
structure UserTable (fold : String → String) extends Table User.id where
  nodup_email : (rows.map fun user => fold user.email).Nodup

/-- Sessions on the table. -/
abbrev UserSessions (T : Type*) := RowSessions T UUID User UserCall

/-- Their events. -/
abbrev UserEvent (T : Type*) := RowEvent T UUID User UserCall IpaError

namespace UserSessions

variable {T : Type*} [DecidableEq T]

/-- The events `tr` lead from the rows of `table` to the state `s`. -/
abbrev Reached {fold : String → String} (table : UserTable fold) (tr : List (UserEvent T))
    (s : UserSessions T) : Prop :=
  Run (RowSessions.Step (UserRepository.statements fold)) (RowSessions.init table.toTable) tr s

/-- `get`. -/
def get (s : UserSessions T) (t : T) (userId : UUID) : Option User := s.visible t userId

/-- `get_by_email`. -/
def getByEmail (fold : String → String) (s : UserSessions T) (t : T) (email : String) :
    Except DbError (Option User) :=
  oneOrNone ((s.select t).filter fun user => fold user.email = fold email)

variable {fold : String → String} {table : UserTable fold} {s s' : UserSessions T}
  {tr tr' : List (UserEvent T)} {t : T} {id : UUID} {user : User}

theorem inv_of_reached (h : Reached table tr s) :
    RowSessions.Inv (UserRepository.statements fold) table.lookup tr s :=
  RowSessions.inv_run table.nodup_email h

/-- A row stands under its identifier. -/
theorem id_of_get (h : Reached table tr s) (huser : s.get t id = some user) : user.id = id := by
  refine (inv_of_reached h).visible_inv (P := fun user => user.id = id) t id ?_ ?_ user huser
  · exact fun user huser => table.key_of_lookup huser
  · intro call previous user _ hwrite
    cases previous <;> cases hwrite
    rfl

/-- An email belongs to one account at most, so looking it up never fails: a session finds exactly the
account that it sees with this email, whatever the case of the letters. -/
theorem email_found_iff (h : Reached table tr s) (t : T) (email : String) :
    ∃ found, s.getByEmail fold t email = .ok found ∧
      ∀ user, found = some user ↔ s.get t user.id = some user ∧ fold user.email = fold email := by
  have hinv := inv_of_reached h
  let rows : Table fun user : User => fold user.email := ⟨s.select t, hinv.nodup_select t⟩
  refine ⟨rows.lookup (fold email), ?_, fun user => ?_⟩
  · rw [getByEmail, rows.filter_key, oneOrNone_toList]
  · rw [rows.lookup_eq_some_iff]
    refine and_congr_left fun _ => hinv.mem_select.trans ⟨?_, fun huser => ⟨_, huser⟩⟩
    rintro ⟨id, huser⟩
    rwa [id_of_get h huser]

/-- Once an account is committed every session finds it by its email, in any case of the letters and at
any later time, and no call of `create` with this email inserts a row. -/
theorem email_owned (h : Reached table tr s) (huser : (s.cell id).committed = some user)
    (h' : Run (RowSessions.Step (UserRepository.statements fold)) s tr' s') {email : String}
    (heq : fold email = fold user.email) :
    (∀ t, s'.getByEmail fold t email = .ok (some user)) ∧
      ∀ t id' call v, RowEvent.write t id' call v ∈ tr' → fold call.email ≠ fold email := by
  have hfixed : ∀ call v, UserRepository.onRow id call (some user) ≠ .write v := nofun
  obtain ⟨hvisible, hwrite⟩ := (inv_of_reached h).fixed huser hfixed h'
  have hreached' : Reached table (tr ++ tr') s' := Run.append_iff.2 ⟨s, h, h'⟩
  refine ⟨fun t => ?_, fun t id' call v hmem hemail => ?_⟩
  · obtain ⟨found, hfound, hiff⟩ := email_found_iff hreached' t email
    rw [hfound, (hiff user).2 ⟨?_, heq.symm⟩]
    have hget : s'.get t id = some user := hvisible t
    rwa [id_of_get hreached' hget]
  · obtain ⟨tr₁, tr₂, m, m', rfl, h₁, hstep, -⟩ := h'.exists_step_of_mem hmem
    have hid : id' ≠ id := by
      rintro rfl
      exact hwrite t call v hmem
    obtain ⟨hrow, -⟩ := (inv_of_reached h).fixed huser hfixed h₁
    cases hstep with
    | write hactive hfree honrow hindex hforeign =>
      refine hindex id (Ne.symm hid) user (Cell.version_of_visible (hrow t)) ?_
      change fold user.email = fold v.email
      cases hprevious : m.visible t id' with
      | some previous =>
        rw [hprevious] at honrow
        cases honrow
      | none =>
        rw [hprevious] at honrow
        cases honrow
        exact heq.symm.trans hemail.symm

/-- A table with no account. -/
def emptyUsers : UserTable lowerText := ⟨Table.empty _, List.nodup_nil⟩

/-- The creation of an account for an email. -/
def sampleUser (email : String) : UserCall := ⟨email, "Ana", "hash", .viewer, 0⟩

/-- The account `Ana@x` is created and committed. -/
def sampleCalls : List (RowCall Bool UUID UserCall) :=
  [.statement true ⟨7⟩ (sampleUser "Ana@x"), .commit true]

theorem isSome_sampleCalls : ((RowSessions.init emptyUsers.toTable).play
    (UserRepository.statements lowerText) sampleCalls).isSome := by
  decide +kernel

/-- What the creation of `Ana@x` leads to. -/
def samplePlayed : List (UserEvent Bool) × UserSessions Bool :=
  ((RowSessions.init emptyUsers.toTable).play (UserRepository.statements lowerText) sampleCalls).get
    isSome_sampleCalls

theorem reached_samplePlayed : Reached emptyUsers samplePlayed.1 samplePlayed.2 :=
  RowSessions.exists_run_play emptyUsers.nodup_email isSome_sampleCalls

/-- A creation with `ANA@X` fails. -/
theorem email_owned_sample : ∃ (tr tr' : List (UserEvent Bool)) (s s' : UserSessions Bool)
    (user : User), Reached emptyUsers tr s ∧
      Run (RowSessions.Step (UserRepository.statements lowerText)) s tr' s' ∧
      (∃ id call e, RowEvent.raise false id call e ∈ tr') ∧
      ∀ t, getByEmail lowerText s' t "ANA@X" = .ok (some user) := by
  obtain ⟨user, huser, hemail⟩ : ∃ user, (samplePlayed.2.cell ⟨7⟩).committed = some user ∧
      lowerText "ANA@X" = lowerText user.email := ⟨_, rfl, by decide⟩
  have h' := RowSessions.run_play (inv_of_reached reached_samplePlayed)
    (rfl : RowSessions.play _ samplePlayed.2 [RowCall.statement false ⟨8⟩ (sampleUser "ANA@X")] =
      some (_, _))
  exact ⟨_, _, _, _, user, reached_samplePlayed, h', ⟨_, _, _, List.mem_singleton_self _⟩,
    (email_owned reached_samplePlayed huser h' hemail).1⟩

end UserSessions

end Ipa
