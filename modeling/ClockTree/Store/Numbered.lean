import ClockTree.Json.Schema

/-!
# Numbered items

A store numbers its items from zero in the order in which they were added. Items are replaced but
never removed, so a number stays valid.
-/
namespace ClockTree

structure Numbered (α : Type) where
  items : List α := []
deriving DecidableEq, Repr

namespace Numbered
variable {α : Type}

def size (a : Numbered α) : Nat := a.items.length

def isEmpty (a : Numbered α) : Bool := a.items.isEmpty

def next (a : Numbered α) : Nat := a.items.length

def add (a : Numbered α) (item : α) : Nat × Numbered α := (a.next, ⟨a.items ++ [item]⟩)

def get? (a : Numbered α) (id : Nat) : Option α := a.items[id]?

/-- Replaces the item with a number; a number that is not in use changes nothing. -/
def set (a : Numbered α) (id : Nat) (item : α) : Numbered α := ⟨a.items.set id item⟩

def entries (a : Numbered α) : List (Nat × α) := a.items.mapIdx fun i item => (i, item)

def toJson (a : Numbered String) : Json := .obj [("items", Json.strings a.items)]

def schema : Json.Schema := .record [(("items", none), .refused, .list .text)]

def read? (text : String) : Option (Numbered String) :=
  (schema.read? text).map fun v => ⟨(v.member "items").items.map Json.text⟩

end Numbered
end ClockTree
