import Std.Data.TreeMap
import Scriptlet.RunError

/-!
The variables of a script with their values, kept in the order of their names. There is one
scope: a name is bound once it was assigned, and stays bound.
-/
namespace Scriptlet

structure Bindings where
  table : Std.TreeMap String Value

namespace Bindings

def empty : Bindings := ⟨∅⟩

instance : Inhabited Bindings := ⟨empty⟩

def get? (b : Bindings) (id : String) : Option Value :=
  b.table[id]?

def contains (b : Bindings) (id : String) : Bool :=
  b.table.contains id

def define (b : Bindings) (id : String) (v : Value) : Bindings :=
  ⟨b.table.insert id v⟩

def size (b : Bindings) : Nat :=
  b.table.size

def isEmpty (b : Bindings) : Bool :=
  b.table.isEmpty

/-- All bindings, by name in the order of code points. -/
def toList (b : Bindings) : List (String × Value) :=
  b.table.toList

def resolve (b : Bindings) (id : String) (p : Position) : Except RunError Value :=
  match b.get? id with
  | some v => .ok v
  | none => .error (.unbound id p)

@[simp] theorem get?_empty (id : String) : empty.get? id = none :=
  Std.TreeMap.getElem?_emptyc

/-- A name is bound to what it was given last. -/
@[simp] theorem get?_define (b : Bindings) (x y : String) (v : Value) :
    (b.define x v).get? y = if x = y then some v else b.get? y := by
  simp [get?, define, Std.TreeMap.getElem?_insert]

theorem contains_eq_isSome (b : Bindings) (id : String) :
    b.contains id = (b.get? id).isSome :=
  Std.TreeMap.contains_eq_isSome_getElem?

theorem contains_define (b : Bindings) (x y : String) (v : Value) :
    (b.define x v).contains y = (x == y || b.contains y) := by
  simp only [contains_eq_isSome, get?_define]
  split <;> simp_all

end Bindings

end Scriptlet
