/-!
# Numbered names

A table gives each distinct name the number of names before it.
-/
namespace ClockTree

structure NameTable where
  names : List String := []

namespace NameTable

def find? (t : NameTable) (name : String) : Option Nat := t.names.idxOf? name

def intern (t : NameTable) (name : String) : Nat × NameTable :=
  match t.find? name with
  | some id => (id, t)
  | none => (t.names.length, ⟨t.names ++ [name]⟩)

def name? (t : NameTable) (id : Nat) : Option String := t.names[id]?

end NameTable
end ClockTree
