import Ipa.Core.Basic

/-!
# Datetimes

A datetime is a wall-clock time in microseconds, with an offset from UTC if it is aware.  BSON keeps the
whole milliseconds of its instant (`Datetime.millis`) and gives back a naive datetime in UTC
(`Datetime.ofMillis`).  Anchored to UTC again, it equals the original exactly when that one is aware
and has no finer part (`eq_stored_iff`).
-/

namespace Ipa

/-- A `datetime`: its wall-clock microseconds since the epoch and, if it is aware, `utcoffset()`. -/
structure Datetime where
  wall : ℤ
  utcOffset : Option ℤ
deriving DecidableEq, Repr

namespace Datetime

/-- The instant in UTC; a naive datetime is read as UTC. -/
def utc (t : Datetime) : ℤ := t.wall - t.utcOffset.getD 0

/-- `t == t'`: aware datetimes compare by their instants, and a naive one equals no aware one. -/
def Eq (t t' : Datetime) : Prop := t.utcOffset.isSome = t'.utcOffset.isSome ∧ t.utc = t'.utc

instance (t t' : Datetime) : Decidable (t.Eq t') := inferInstanceAs (Decidable (_ ∧ _))

/-- What BSON stores: milliseconds since the epoch, rounded down. -/
def millis (t : Datetime) : ℤ := t.utc / 1000

/-- What the driver reads back: a naive datetime in UTC. -/
def ofMillis (ms : ℤ) : Datetime := ⟨ms * 1000, none⟩

/-- `t.replace(tzinfo=UTC)` if `t` is naive. -/
def anchorUtc (t : Datetime) : Datetime :=
  match t.utcOffset with
  | none => { t with utcOffset := some 0 }
  | some _ => t

theorem anchorUtc_ofMillis (ms : ℤ) : (ofMillis ms).anchorUtc = ⟨ms * 1000, some 0⟩ := rfl

/-- A datetime survives storage when it is aware and has whole milliseconds, and only then. -/
theorem eq_stored_iff (t : Datetime) :
    (ofMillis t.millis).anchorUtc.Eq t ↔ t.utcOffset.isSome ∧ 1000 ∣ t.utc := by
  rw [anchorUtc_ofMillis]
  have hutc : utc ⟨t.millis * 1000, some 0⟩ = t.utc / 1000 * 1000 := by
    simp [utc, millis]
  unfold Eq
  rw [hutc]
  constructor
  · rintro ⟨haware, hinstant⟩
    exact ⟨haware.symm, by omega⟩
  · rintro ⟨haware, hwhole⟩
    exact ⟨haware.symm, by omega⟩

end Datetime

end Ipa
