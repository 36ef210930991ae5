import RadioPacket.Leaf.Basic
import RadioPacket.Position

/-!
# Findings about layouts

A warning reports a layout that is legal and inconvenient; an error reports items that cannot be
laid out.  Both name the items they are about.
-/

namespace RadioPacket

/-- A legal but inconvenient property of a layout. -/
inductive LayoutWarning where
  /-- The layout does not fill whole words. -/
  | size (layout : String) (bits : Nat)
  /-- A field does not start at a multiple of its natural alignment. -/
  | alignment (layout field : String) (position : Position) (bits alignment : Nat)
  /-- The payload of an indicator field does not fill whole words. -/
  | contentSize (group field : String) (bits : Nat)
  deriving DecidableEq

def LayoutWarning.message : LayoutWarning → String
  | .size layout bits =>
      "`" ++ layout ++ "` is " ++ toString bits ++ " bits, not a multiple of 32"
  | .alignment layout field position bits multiple =>
      "`" ++ layout ++ "." ++ field ++ "` (" ++ toString bits ++ " bits) at " ++ position.text ++
        " is not " ++ toString multiple ++ "-bit aligned"
  | .contentSize group field bits =>
      "`" ++ group ++ "." ++ field ++ "` payload is " ++ toString bits ++
        " bits, not a whole number of words"

/-- Why items cannot be laid out. -/
inductive LayoutError where
  | leaf (cause : LeafError)
  /-- An item is too wide, or does not fit behind the items before it. -/
  | itemWidth (kind : String) (bits : Nat)
  /-- An item has no bits. -/
  | emptyItem
  | duplicateName (layout name : String)
  | unknownEnable (layout field enable : String)
  | enableAlreadyLinked (layout enable linked field : String)
  | unlinkedEnable (layout enable : String)
  | rebindTargetNotFound (layout field : String) (position : Position)
  | rebindOverflow (layout field : String) (position : Position) (bits : Nat)
  | indicatorBitOutOfRange (group field : String) (bit : Nat)
  | indicatorBitCollision (group : String) (bit : Nat) (first second : String)
  /-- A layout that must have no warnings has one. -/
  | strict (warning : LayoutWarning)
  deriving DecidableEq

def LayoutError.message : LayoutError → String
  | .leaf cause => cause.message
  | .itemWidth kind bits => LeafError.widthMessage kind bits
  | .emptyItem => LeafError.widthMessage "structure item" 0
  | .duplicateName layout name => "`" ++ layout ++ "` declares `" ++ name ++ "` more than once"
  | .unknownEnable layout field enable =>
      "`" ++ layout ++ "." ++ field ++ "` is linked to unknown enable `" ++ enable ++ "`"
  | .enableAlreadyLinked layout enable linked field =>
      "`" ++ layout ++ "." ++ enable ++ "` is already linked to `" ++ linked ++
        "`, cannot link `" ++ field ++ "`"
  | .unlinkedEnable layout enable =>
      "`" ++ layout ++ "." ++ enable ++ "` is not linked to any field"
  | .rebindTargetNotFound layout field position =>
      "`" ++ layout ++ "` has no reserved bits at " ++ position.text ++ " to rebind `" ++ field ++
        "`"
  | .rebindOverflow layout field position bits =>
      "`" ++ layout ++ "." ++ field ++ "` (" ++ toString bits ++
        " bits) overflows the reserved run at " ++ position.text
  | .indicatorBitOutOfRange group field bit =>
      "`" ++ group ++ "." ++ field ++ "` uses CIF bit " ++ toString bit ++ ", outside 0..=31"
  | .indicatorBitCollision group bit first second =>
      "`" ++ group ++ "` maps both `" ++ first ++ "` and `" ++ second ++ "` to CIF bit " ++
        toString bit
  | .strict warning => "strict layout: " ++ warning.message

end RadioPacket
