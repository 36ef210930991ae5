/-!
# Presence modes

A field of a packet is not used, present per packet, or always present.  A mandatory field may be
asked for again as required, which leaves it mandatory, and is never relaxed.
-/

namespace RadioPacket

/-- Presence policy of a field. -/
inductive Mode where
  /-- Not used by the packet. -/
  | disabled
  /-- Present or absent per packet, as the linked enable says. -/
  | optional
  /-- Always present by the packet's definition. -/
  | required
  /-- Always present by protocol rule; cannot be relaxed. -/
  | mandatory
  deriving DecidableEq, Inhabited

def Mode.name : Mode → String
  | .disabled => "disabled"
  | .optional => "optional"
  | .required => "required"
  | .mandatory => "mandatory"

/-- Why a mode is not changed or not known. -/
inductive ModeError where
  | mandatoryLocked (field : String) (requested : Mode)
  | unknownField (field : String)
  | unknownMode (text : String)
  deriving DecidableEq

def ModeError.message : ModeError → String
  | .mandatoryLocked field requested =>
      "field `" ++ field ++ "` is mandatory and cannot become " ++ requested.name
  | .unknownField field => "no field named `" ++ field ++ "`"
  | .unknownMode text => "unknown mode `" ++ text ++ "`"

namespace Mode

/-- All modes, from the weakest to the strongest. -/
def all : List Mode := [.disabled, .optional, .required, .mandatory]

/-- Reads a mode name; ASCII letters match in either case. -/
def ofText (text : String) : Except ModeError Mode :=
  match all.find? fun mode => mode.name == text.map Char.toLower with
  | some mode => .ok mode
  | none => .error (.unknownMode text)

/-- The mode after a change request for the field named `field`. -/
def request (current requested : Mode) (field : String) : Except ModeError Mode :=
  match current, requested with
  | .mandatory, .mandatory => .ok .mandatory
  | .mandatory, .required => .ok .mandatory
  | .mandatory, other => .error (.mandatoryLocked field other)
  | _, other => .ok other

/-- The mode of a field that is given a concrete value: a disabled one becomes required. -/
def whenAssigned : Mode → Mode
  | .disabled => .required
  | other => other

/-- The field is in use. -/
def isEnabled (mode : Mode) : Bool := mode != .disabled

/-- Each packet decides about the field. -/
def isOptional (mode : Mode) : Bool := mode == .optional

/-- Required or mandatory. -/
def isRequired (mode : Mode) : Bool := mode == .required || mode == .mandatory

/-- The presence that a mode decides, `none` when each packet decides it. -/
def presence? : Mode → Option Bool
  | .disabled => some false
  | .optional => none
  | .required | .mandatory => some true

/-- The mode of a field that has been tied to an enable: a required one becomes optional. -/
def gated : Mode → Mode
  | .required => .optional
  | other => other

/-- Some mode of a list is in use. -/
def anyEnabled (modes : List Mode) : Bool := modes.any isEnabled

/-- Every mode in use is optional. -/
def allOptional (modes : List Mode) : Bool :=
  modes.all fun mode => !mode.isEnabled || mode.isOptional

/-- The mode of a whole whose parts have the given modes: not used without a part in use, optional
when every part in use is, and required otherwise. -/
def ofParts (modes : List Mode) : Mode :=
  if !anyEnabled modes then .disabled
  else if allOptional modes then .optional
  else .required

end Mode

end RadioPacket
