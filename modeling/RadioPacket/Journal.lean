import RadioPacket.Layout.Error

/-!
# Events

What building a structure reports while it runs.  Events are data: a build answers the list of its
events beside its result, in the order in which they happen.
-/

namespace RadioPacket

/-- How much attention an event asks for. -/
inductive Severity where
  | trace
  | debug
  | warn
  deriving DecidableEq

/-- Something that happens during a build. -/
inductive Event where
  /-- A field takes the place of reserved bits. -/
  | rebinding (layout : String) (position : Position) (field : String)
  | warning (warning : LayoutWarning)
  /-- A layout is complete. -/
  | froze (layout : String) (items bits : Nat)
  /-- An indicator group is complete. -/
  | builtGroup (group : String) (contents : Nat)
  deriving DecidableEq

namespace Event

def severity : Event → Severity
  | .rebinding _ _ _ => .trace
  | .warning _ => .warn
  | .froze _ _ _ => .debug
  | .builtGroup _ _ => .debug

def text : Event → String
  | .rebinding layout position field =>
      layout ++ ": rebinding " ++ position.text ++ " to `" ++ field ++ "`"
  | .warning finding => finding.message
  | .froze layout items bits =>
      "froze `" ++ layout ++ "`: " ++ toString items ++ " items, " ++ toString bits ++ " bits"
  | .builtGroup group contents =>
      "built CIF group `" ++ group ++ "`: " ++ toString contents ++ " content fields"

end Event

def Severity.name : Severity → String
  | .trace => "TRACE"
  | .debug => "DEBUG"
  | .warn => "WARN"

end RadioPacket
