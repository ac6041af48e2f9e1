import Timetable.Frontier
import Timetable.Instruction
import Timetable.Json

/-!
# How schedules and frontiers are shown

A schedule is shown with a line for each slot, the indices lined up at the right, or as a JSON array
of slots. A frontier is shown as a row of entries such as `q0=3`, or as a JSON object. The keys that
an operation reads and writes are not shown.

* `Report.slotsText`, `Report.slotsJson`: the two forms of a schedule.
* `Report.frontierText`, `Report.frontierJson`: the two forms of a frontier.
-/

namespace Timetable.Report

open Text (join)
open Text.Decimal (natText)

/-! ### Text -/

/-- A number in a column of the given width, at its right edge. -/
def column (width n : Nat) : String :=
  "".pushn ' ' (width - (natText n).length) ++ natText n

def slotLine (width : Nat) (slot : Slot Instruction) (index : Nat) : String :=
  "  " ++ column width index ++ ": " ++ join " " (slot.operations.map Instruction.render)

/-- A line for each slot. The column of the indices is as wide as the last one. -/
def slotsText (slots : List (Slot Instruction)) : String :=
  let width := (natText (slots.length - 1)).length
  join "\n" (slots.zipIdx.map fun entry => slotLine width entry.1 entry.2)

/-- An entry such as `q0=3` for each resource. -/
def frontierText (frontier : Frontier) : String :=
  join ", " (frontier.entries.map fun entry => entry.1.render ++ "=" ++ natText entry.2)

/-! ### JSON -/

def resourcesJson (rs : List Resource) : Json := .ofTexts (rs.map Resource.render)

mutual

/-- An instruction: name, resources, and body where it has one. -/
def instructionJson : Instruction → Json
  | ⟨name, resources, _, _, none⟩ =>
    .ofMembers [("name", .string name), ("resources", resourcesJson resources)]
  | ⟨name, resources, _, _, some ⟨slots, _⟩⟩ =>
    .ofMembers [("name", .string name), ("resources", resourcesJson resources),
      ("body", .array (slotItems slots))]

def slotItems : List (Slot Instruction) → List Json
  | [] => []
  | ⟨ops, _⟩ :: slots => .array (instructionItems ops) :: slotItems slots

def instructionItems : List Instruction → List Json
  | [] => []
  | op :: ops => instructionJson op :: instructionItems ops

end

def slotsJson (slots : List (Slot Instruction)) : Json := .array (slotItems slots)

def frontierJson (frontier : Frontier) : Json :=
  .ofMembers (frontier.entries.map fun entry => (entry.1.render, Json.ofNat entry.2))

end Timetable.Report
