/-!
# Jobs

A job is what a command does step by step: it prints, reads files and creates them, and ends with a
value or with a message. It can be carried out in any surroundings that answer its questions.
-/
namespace ClockTree.Cli

inductive Job (α : Type) where
  | done (a : α)
  | fail (message : String)
  | out (text : String) (next : Job α)
  | err (text : String) (next : Job α)
  | find (path : String) (next : Bool → Job α)
  | read (path : String) (next : Except String String → Job α)
  | create (path content : String) (next : Except String Unit → Job α)

namespace Job
variable {α β : Type}

def bind : Job α → (α → Job β) → Job β
  | .done a, f => f a
  | .fail message, _ => .fail message
  | .out text next, f => .out text (next.bind f)
  | .err text next, f => .err text (next.bind f)
  | .find path next, f => .find path fun b => (next b).bind f
  | .read path next, f => .read path fun r => (next r).bind f
  | .create path content next, f => .create path content fun r => (next r).bind f

instance : Monad Job where
  pure := .done
  bind := bind

def print (text : String) : Job Unit := .out text (.done ())

def tell (line : String) : Job Unit := .err (line ++ "\n") (.done ())

def isFile (path : String) : Job Bool := .find path .done

def readFile (path : String) : Job (Except String String) := .read path .done

def createFile (path content : String) : Job (Except String Unit) := .create path content .done

def orFail {ε : Type} (message : ε → String) : Except ε α → Job α
  | .ok a => .done a
  | .error e => .fail (message e)

end Job
end ClockTree.Cli
