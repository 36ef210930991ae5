import RadioPacket.Container.Basic

/-!
# Observable equality of containers

Two containers are the same when their layouts are equal and every item shows the same value in
both.  Modes do not count, nor does what an absent field stores.
-/

namespace RadioPacket

mutual

/-- The cells of two instances of a layout show the same values. -/
def Layout.sameCells : Layout → (a b : List Cell) → Bool
  | ⟨_, slots, _, _, _⟩, a, b => Slot.sameAll slots a b a b
termination_by structural layout => layout

/-- Some cells of two instances show the same values; `allA` and `allB` hold all cells. -/
def Slot.sameAll : List Slot → (a b allA allB : List Cell) → Bool
  | ⟨.field ⟨_, .leaf _, _, _, _, _⟩, _, link⟩ :: slots, .leaf x _ :: a, .leaf y _ :: b, allA,
    allB =>
      (Cell.isOpen allA link == Cell.isOpen allB link &&
          (!Cell.isOpen allA link || x.same y)) &&
        Slot.sameAll slots a b allA allB
  | ⟨.field ⟨_, .record layout, _, _, _, _⟩, _, link⟩ :: slots, .record x _ :: a,
    .record y _ :: b, allA, allB =>
      (Cell.isOpen allA link == Cell.isOpen allB link &&
          (!Cell.isOpen allA link || layout.sameCells x y)) &&
        Slot.sameAll slots a b allA allB
  | ⟨.enable _, _, _⟩ :: slots, .enable x :: a, .enable y :: b, allA, allB =>
      x == y && Slot.sameAll slots a b allA allB
  | ⟨.reserved _, _, _⟩ :: slots, .reserved :: a, .reserved :: b, allA, allB =>
      Slot.sameAll slots a b allA allB
  | [], [], [], _, _ => true
  | _, _, _, _, _ => false
termination_by structural slots => slots

end

def Container.same (a b : Container) : Bool :=
  decide (a.layout = b.layout) && a.layout.sameCells a.cells b.cells

end RadioPacket
