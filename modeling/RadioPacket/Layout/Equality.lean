import RadioPacket.Layout.Basic

/-!
# Equality of layouts

Two layouts are equal when all that they declare is equal, nested structures included.  The
decision follows the structure of the types; it stands in a module of its own because the types
refer to each other.
-/

namespace RadioPacket

mutual

def FieldType.decEq : (a b : FieldType) → Decidable (a = b)
  | .leaf a, .leaf b =>
      if h : a = b then isTrue (by rw [h]) else isFalse (by simp [h])
  | .record a, .record b =>
      match a.decEq b with
      | isTrue h => isTrue (by rw [h])
      | isFalse h => isFalse (by simp [h])
  | .leaf _, .record _ => isFalse nofun
  | .record _, .leaf _ => isFalse nofun
termination_by structural a => a

def Field.decEq : (a b : Field) → Decidable (a = b)
  | ⟨name, type, mode, enabledBy, editable, bit⟩,
    ⟨name', type', mode', enabledBy', editable', bit'⟩ =>
      match type.decEq type' with
      | isTrue h =>
          if h' : name = name' ∧ mode = mode' ∧ enabledBy = enabledBy' ∧
              editable = editable' ∧ bit = bit' then
            isTrue (by simp [h, h'])
          else
            isFalse (by simpa [h] using h')
      | isFalse h => isFalse (by simp [h])
termination_by structural a => a

def Item.decEq : (a b : Item) → Decidable (a = b)
  | .field a, .field b =>
      match a.decEq b with
      | isTrue h => isTrue (by rw [h])
      | isFalse h => isFalse (by simp [h])
  | .enable a, .enable b =>
      if h : a = b then isTrue (by rw [h]) else isFalse (by simp [h])
  | .reserved a, .reserved b =>
      if h : a = b then isTrue (by rw [h]) else isFalse (by simp [h])
  | .field _, .enable _ => isFalse nofun
  | .field _, .reserved _ => isFalse nofun
  | .enable _, .field _ => isFalse nofun
  | .enable _, .reserved _ => isFalse nofun
  | .reserved _, .field _ => isFalse nofun
  | .reserved _, .enable _ => isFalse nofun
termination_by structural a => a

def Slot.decEq : (a b : Slot) → Decidable (a = b)
  | ⟨item, position, link⟩, ⟨item', position', link'⟩ =>
      match item.decEq item' with
      | isTrue h =>
          if h' : position = position' ∧ link = link' then
            isTrue (by simp [h, h'])
          else
            isFalse (by simpa [h] using h')
      | isFalse h => isFalse (by simp [h])
termination_by structural a => a

def Slot.decEqList : (a b : List Slot) → Decidable (a = b)
  | [], [] => isTrue rfl
  | [], _ :: _ => isFalse nofun
  | _ :: _, [] => isFalse nofun
  | a :: as, b :: bs =>
      match a.decEq b with
      | isTrue h =>
          match Slot.decEqList as bs with
          | isTrue h' => isTrue (by rw [h, h'])
          | isFalse h' => isFalse (by simp [h'])
      | isFalse h => isFalse (by simp [h])
termination_by structural a => a

def Layout.decEq : (a b : Layout) → Decidable (a = b)
  | ⟨name, slots, bits, warnings, dynamicSize⟩, ⟨name', slots', bits', warnings', dynamicSize'⟩ =>
      match Slot.decEqList slots slots' with
      | isTrue h =>
          if h' : name = name' ∧ bits = bits' ∧ warnings = warnings' ∧
              dynamicSize = dynamicSize' then
            isTrue (by simp [h, h'])
          else
            isFalse (by simpa [h] using h')
      | isFalse h => isFalse (by simp [h])
termination_by structural a => a

end

instance : DecidableEq FieldType := FieldType.decEq

instance : DecidableEq Field := Field.decEq

instance : DecidableEq Item := Item.decEq

instance : DecidableEq Slot := Slot.decEq

instance : DecidableEq Layout := Layout.decEq

end RadioPacket
