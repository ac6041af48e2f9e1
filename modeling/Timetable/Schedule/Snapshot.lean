import Timetable.Schedule

/-!
# Snapshots

A snapshot is a schedule that does not change any more. Taking one gives it a serial number of its
own, and copies of a snapshot share the number with it: two snapshots with one number are one.

* `Schedule.freeze`, `Snapshot.thaw`: from a schedule to a snapshot and back.
* `Snapshot.isCopyOf`: whether two snapshots are one.
* `Snapshot.same`, `Snapshot.sameAs`, `Schedule.sameAs`: whether they hold the same.
-/

namespace Timetable

/-- A schedule that does not change any more. -/
structure Snapshot (ω : Type) where
  schedule : Schedule ω
  serial : Nat

variable {ω : Type}

def Schedule.freeze (s : Schedule ω) (serial : Nat) : Snapshot ω := ⟨s, serial⟩

namespace Snapshot

def thaw (f : Snapshot ω) : Schedule ω := f.schedule

def isCopyOf (f g : Snapshot ω) : Bool := f.serial == g.serial

def slice (f : Snapshot ω) (start stop serial : Nat) : Snapshot ω :=
  (f.schedule.slice start stop).freeze serial

variable [Operation ω]

/-- Whether the snapshots hold equal slots under one acceptance rule. -/
def same (f g : Snapshot ω) : Bool := f.schedule == g.schedule

instance : BEq (Snapshot ω) := ⟨same⟩

def sameAs (f : Snapshot ω) (s : Schedule ω) : Bool := f.schedule == s

end Snapshot

/-- Whether the schedule holds what the snapshot holds; it is the snapshot that is asked. -/
def Schedule.sameAs [Operation ω] (s : Schedule ω) (f : Snapshot ω) : Bool := f.sameAs s

end Timetable
