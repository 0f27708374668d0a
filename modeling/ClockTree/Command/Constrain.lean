import ClockTree.Command.Item
import ClockTree.Session.Basic

/-!
# Declaring exceptions

`set_false_path`, `set_max_delay` and `set_clock_groups` record an exception. The ends of a path are
queries or lists of bare names; giving an end more than once adds to it.
-/
namespace ClockTree.Command.Constrain

def endOptions : List String := ["-from", "-through", "-to"]

def endQuery (a : Argument) : Query :=
  match a with
  | .query q => q
  | .word _ => ⟨.objects, a.listItems⟩

def addEnd (ends : Endpoints) (option : String) (q : Query) : Endpoints :=
  let extend (s : Option Selection) : Option Selection := some (s.getD [] ++ [q])
  if option = "-from" then { ends with start := extend ends.start }
  else if option = "-through" then { ends with through := extend ends.through }
  else { ends with stop := extend ends.stop }

def falsePathItem (ends : Endpoints) : Item → Except CommandFault Endpoints
  | .incomplete name => .error (.missingValue "set_false_path" name)
  | .option name value => .ok (addEnd ends name (endQuery value))
  | .single a =>
    if ["-quiet", "-setup", "-hold"].any fun w => a = .word w then .ok ends
    else .error (.unknownOption "set_false_path" a.text)

def falsePath (args : List Argument) : Except Fault TimingException :=
  match (items endOptions args).foldlM falsePathItem {} with
  | .error e => .error (.command e)
  | .ok ends => .ok (.falsePath ends)

structure DelayOptions where
  delay : Option Float := none
  ends : Endpoints := {}

def delayItem (o : DelayOptions) : Item → Except CommandFault DelayOptions
  | .incomplete name => .error (.missingValue "set_max_delay" name)
  | .option name value => .ok { o with ends := addEnd o.ends name (endQuery value) }
  | .single a =>
    if a.word?.isSome && o.delay.isNone && !a.isSwitch then
      return { o with delay := some (← readNumber "set_max_delay" "delay" a) }
    else .error (.unknownOption "set_max_delay" a.text)

def maxDelay (args : List Argument) : Except Fault TimingException :=
  match (items endOptions args).foldlM delayItem {} with
  | .error e => .error (.command e)
  | .ok o => match o.delay with
    | none => .error (.command .missingDelay)
    | some delay => (TimingException.ofDelay delay o.ends).mapError .exception

structure GroupOptions where
  relation : Option GroupRelation := none
  groups : List (List String) := []

def groupPatterns (a : Argument) : Except CommandFault (List String) :=
  match a with
  | .word _ => .ok a.listItems
  | .query q => if q.kind = .clocks then .ok q.effective else .error (.groupTakesClocks q.text)

def groupItem (o : GroupOptions) : Item → Except CommandFault GroupOptions
  | .incomplete name =>
    if name = "-name" then .ok o else .error (.missingValue "set_clock_groups" name)
  | .option name value =>
    if name = "-name" then .ok o
    else return { o with groups := o.groups ++ [← groupPatterns value] }
  | .single a => match a.word?.bind GroupRelation.ofFlag? with
    | none => .error (.unknownOption "set_clock_groups" a.text)
    | some r =>
      if (o.relation.getD r) = r then .ok { o with relation := some r }
      else .error .conflictingRelations

def clockGroups (args : List Argument) : Except Fault TimingException :=
  match (items ["-group", "-name"] args).foldlM groupItem {} with
  | .error e => .error (.command e)
  | .ok o => (TimingException.ofGroups o.relation o.groups).mapError .exception

end ClockTree.Command.Constrain
