import ClockTree.Session.Fault

/-!
# Items of an argument list

An argument list is a sequence of options with a value and of single arguments. Which options take a
value depends on the command.
-/
namespace ClockTree.Command

inductive Item where
  | option (name : String) (value : Argument)
  | incomplete (name : String)
  | single (argument : Argument)
deriving DecidableEq, Repr

def valued? (valued : List String) : Argument → Option String
  | .word w => if valued.contains w then some w else none
  | .query _ => none

/-- The items of a list. An option takes the next argument as its value, whatever it is. -/
def items (valued : List String) : List Argument → List Item
  | [] => []
  | [a] => match valued? valued a with
    | some name => [.incomplete name]
    | none => [.single a]
  | a :: b :: args => match valued? valued a with
    | some name => .option name b :: items valued args
    | none => .single a :: items valued (b :: args)

def readNumber (command what : String) (a : Argument) : Except CommandFault Float :=
  match (a.word?.bind fun w => Number.read? (Text.trim w)).filter Float.isFinite with
  | some x => .ok x
  | none => .error (.invalidNumber command what a.text)

end ClockTree.Command
