import RadioPacket.Container.Assign

/-!
# Operations as data

A history of a container is a list of operations.  Running one always gives a container: after a
refused operation it is the one before, except that an operation inside a nested structure leaves
the structures on its way marked present.
-/

namespace RadioPacket

/-- Why an operation is refused. -/
inductive OperationError where
  | value (cause : ValueError)
  | mode (cause : ModeError)
  deriving DecidableEq

def OperationError.message : OperationError → String
  | .value cause => cause.message
  | .mode cause => cause.message

/-- A change of a container. -/
inductive Operation where
  /-- Assigns by index. -/
  | assignAt (index : Nat) (value : Option Value)
  | assign (name : String) (value : Value)
  | clear (name : String)
  | assignSymbol (name symbol : String)
  | changeMode (name : String) (requested : Mode)
  /-- Marks a nested structure present and changes nothing in it. -/
  | touch (name : String)
  /-- Changes a nested structure. -/
  | within (name : String) (operation : Operation)

/-- The outcome of an operation that stands alone. -/
def Operation.settle {ε : Type} (c : Container) (refuse : ε → OperationError) :
    Except ε Container → Container × Except OperationError Unit
  | .ok changed => (changed, .ok ())
  | .error error => (c, .error (refuse error))

def Operation.run : Operation → Container → Container × Except OperationError Unit
  | .assignAt index value, c => settle c .value (c.assignAt index value)
  | .assign name value, c => settle c .value (c.assign name value)
  | .clear name, c => settle c .value (c.clear name)
  | .assignSymbol name symbol, c => settle c .value (c.assignSymbol name symbol)
  | .changeMode name requested, c => settle c .mode (c.changeMode name requested)
  | .touch name, c => settle c .value ((c.enter name).map (·.1))
  | .within name operation, c =>
      c.within name (fun error => .error (.value error)) operation.run

end RadioPacket
