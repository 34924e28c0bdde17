import Scriptlet.Bindings

/-!
Names for loop counters. They are numbered upwards, and a number whose name is bound is
passed over, so no name is handed out twice.

The numbers have no upper end here, where a machine word ends at `2 ^ 64`. No draft comes near
it: every number that is handed out belongs to a loop in the text and every number that is
passed over to a name in it, so there are at most as many as the text has tokens.
-/
namespace Scriptlet.CSource

/-- The number from which the next name is sought. -/
structure Counters where
  next : Nat := 0
deriving DecidableEq, Repr

namespace Counters

def name (n : Nat) : String :=
  "_r" ++ n.repr

/-- The first number from `next` on whose name is not bound. At most `b.size` names are, so
after that many numbers the one that follows is free. -/
def free (c : Counters) (b : Bindings) : Nat :=
  ((List.range' c.next b.size).find? fun n => !b.contains (name n)).getD (c.next + b.size)

def take (c : Counters) (b : Bindings) : String × Counters :=
  (name (c.free b), ⟨c.free b + 1⟩)

end Counters

end Scriptlet.CSource
