import RadioPacket.Cif.Wire
import RadioPacket.Proofs.Cif.Built
import RadioPacket.Proofs.Container.Carried
import RadioPacket.Proofs.Container.Decoding

/-!
# Reading a group

The payload of a group is read field by field behind the indicator word, and only the fields that
the word announces take part.  What is read depends on the bits of these fields alone, so bytes that
agree on them are read alike.
-/

namespace RadioPacket

theorem Bits.bytesFor_le_iff {bits size : Nat} : bytesFor bits ≤ size ↔ bits ≤ 8 * size := by
  rw [bytesFor]
  omega

theorem Bits.lt_bytesFor_iff {bits size : Nat} : size < bytesFor bits ↔ 8 * size < bits := by
  rw [← Nat.not_le, bytesFor_le_iff, Nat.not_le]

/-! ## The indicator word -/

namespace CifGroup.Built

variable {group : CifGroup} {data : Bytes} {enables : Container}

theorem word_bytes (h : group.Built) : group.enables.bytes = 4 := by
  rw [Layout.bytes, h.word_bits]
  rfl

/-- As many bytes as the word has are enough to read it, for flags and enables mean something
whatever their bits are. -/
theorem unpack_word (h : group.Built) (hsize : 4 ≤ data.size) :
    ∃ enables, Container.unpack group.enables data = .ok enables := by
  rw [← Fallible.error?_eq_none, h.word.error?_unpack (h.word_bytes ▸ hsize),
    List.findSome?_eq_none_iff, Layout.presentLeaves_eq_flatMap]
  intro site hsite
  obtain ⟨slot, hslot, hsite⟩ := List.mem_flatMap.mp hsite
  cases hitem : slot.item with
  | field field =>
      simp only [Slot.presentLeaves, hitem, h.flagsOnly slot hslot field hitem] at hsite
      split at hsite
      · rw [List.mem_singleton.mp hsite]
        rfl
      · cases hsite
  | enable _ => simp [Slot.presentLeaves, hitem] at hsite
  | reserved _ => simp [Slot.presentLeaves, hitem] at hsite

theorem unpack_word_short (h : group.Built) (hsize : data.size < 4) :
    Container.unpack group.enables data = .error (.packetTooShort 4 data.size) := by
  rw [Container.unpack, h.word_bytes, if_pos hsize]

theorem unpack_word_congr (h : group.Built) {other : Bytes} (hdata : 4 ≤ data.size)
    (hother : 4 ≤ other.size) (hsame : Bits.Agree data other 0 32) :
    Container.unpack group.enables other = Container.unpack group.enables data := by
  have hbits := h.word_bits
  have hread := h.word.readAt_congr data other 0 (by omega) (by omega) (hbits ▸ hsame)
  rw [Container.unpack, Container.unpack, h.word_bytes, if_neg (by omega), if_neg (by omega), hread]

/-- The word announces a payload field by the bit with the field's number. -/
theorem isSetAt_word (h : group.Built) (hunpack : Container.unpack group.enables data = .ok enables)
    {content : CifContent} (hcontent : content ∈ group.content) :
    Cell.isSetAt enables.cells content.enable = Bits.bitAt data (31 - content.bit) := by
  obtain ⟨_, cells, hcells, rfl⟩ := h.word.sound.unpack_eq_ok.mp hunpack
  obtain ⟨hslot, hoffset, _⟩ := h.enable_slot hcontent
  obtain ⟨cell, hcell, hread⟩ := exists_at hcells hslot
  simp only [Slot.readCell, Slot.gateCell, Except.ok.injEq] at hread
  rw [Cell.isSetAt, hcell, ← hread, hoffset]
  simp [Cell.isSet, Bits.window]

end CifGroup.Built

/-! ## The payload -/

theorem CifContent.readAt_congr {content : CifContent} {a b : Bytes} {position : Nat}
    (hinner : content.Built) (ha : position + content.type.bits ≤ 8 * a.size)
    (hb : position + content.type.bits ≤ 8 * b.size)
    (h : Bits.Agree a b position content.type.bits) :
    content.type.readAt content.name content.mode a position =
      content.type.readAt content.name content.mode b position := by
  cases htype : content.type with
  | leaf type =>
      rw [htype] at ha hb h
      simp only [FieldType.readAt]
      rw [type.readAt_congr content.name ha hb h]
  | record layout =>
      rw [htype] at ha hb h
      simp only [FieldType.readAt]
      rw [(hinner layout htype).readAt_congr a b position ha hb h]

namespace CifContainer

/-- The cells of payload fields that are read from bit `position` on.  Announced fields stand one
behind the other, and the others get new cells. -/
inductive Reads (enables : List Cell) (data : Bytes) :
    List CifContent → (position : Nat) → List Cell → Prop where
  | done {position : Nat} : Reads enables data [] position []
  | absent {content : CifContent} {rest : List CifContent} {position : Nat} {cells : List Cell} :
      Cell.isSetAt enables content.enable = false → Reads enables data rest position cells →
      Reads enables data (content :: rest) position
        (content.type.freshCell content.mode :: cells)
  | present {content : CifContent} {rest : List CifContent} {position : Nat} {cell : Cell}
      {cells : List Cell} :
      Cell.isSetAt enables content.enable = true →
      position + content.type.bits ≤ 8 * data.size →
      content.type.readAt content.name content.mode data position = .ok cell →
      Reads enables data rest (position + content.type.bits) cells →
      Reads enables data (content :: rest) position (cell :: cells)

variable {enables : List Cell} {data : Bytes} {content : CifContent} {contents : List CifContent}
  {position : Nat} {cells : List Cell}

/-! One equation for each way in which a field is dealt with. -/

theorem payloadBits_absent (h : Cell.isSetAt enables content.enable = false) :
    payloadBits enables (content :: contents) = payloadBits enables contents := by
  rw [payloadBits, h]
  exact Nat.zero_add _

theorem payloadBits_present (h : Cell.isSetAt enables content.enable = true) :
    payloadBits enables (content :: contents) =
      content.type.bits + payloadBits enables contents := by
  rw [payloadBits, if_pos h]

theorem readPayload_absent (h : Cell.isSetAt enables content.enable = false) :
    readPayload enables data (content :: contents) position =
      (readPayload enables data contents position).map
        (content.type.freshCell content.mode :: ·) := by
  rw [readPayload, h]
  rfl

theorem readPayload_short (h : Cell.isSetAt enables content.enable = true)
    (hsize : data.size < Bits.bytesFor (position + content.type.bits)) :
    readPayload enables data (content :: contents) position =
      .error (.packetTooShort (Bits.bytesFor (position + content.type.bits)) data.size) := by
  simp only [readPayload, if_pos h, if_pos hsize]
  rfl

theorem readPayload_present (h : Cell.isSetAt enables content.enable = true)
    (hfit : position + content.type.bits ≤ 8 * data.size) :
    readPayload enables data (content :: contents) position = do
      let cell ← content.type.readAt content.name content.mode data position
      return cell :: (← readPayload enables data contents (position + content.type.bits)) := by
  have hsize : ¬ data.size < Bits.bytesFor (position + content.type.bits) :=
    Nat.not_lt_of_le (Bits.bytesFor_le_iff.mpr hfit)
  simp only [readPayload, if_pos h, if_neg hsize]

theorem readPayload_eq_ok :
    readPayload enables data contents position = .ok cells ↔
      Reads enables data contents position cells := by
  induction contents generalizing position cells with
  | nil =>
      constructor
      · intro h
        cases h
        exact .done
      · intro h
        cases h
        rfl
  | cons content contents ih =>
      cases hset : Cell.isSetAt enables content.enable with
      | false =>
          rw [readPayload_absent hset, Fallible.map_eq_ok]
          constructor
          · rintro ⟨rest, hrest, rfl⟩
            exact .absent hset (ih.mp hrest)
          · intro h
            cases h with
            | absent _ hrest => exact ⟨_, ih.mpr hrest, rfl⟩
            | present hother _ _ _ => cases hset.symm.trans hother
      | true =>
          by_cases hfit : position + content.type.bits ≤ 8 * data.size
          · rw [readPayload_present hset hfit, Fallible.bind_eq_ok]
            constructor
            · rintro ⟨cell, hcell, h⟩
              obtain ⟨rest, hrest, hresult⟩ := Fallible.bind_eq_ok.mp h
              cases hresult
              exact .present hset hfit hcell (ih.mp hrest)
            · intro h
              cases h with
              | absent hother _ => cases hset.symm.trans hother
              | present _ _ hcell hrest =>
                  exact ⟨_, hcell, Fallible.bind_eq_ok.mpr ⟨_, ih.mpr hrest, rfl⟩⟩
          · have hsize := Bits.lt_bytesFor_iff.mpr (Nat.lt_of_not_le hfit)
            rw [readPayload_short hset hsize]
            constructor
            · intro h
              cases h
            · intro h
              cases h with
              | absent hother _ => cases hset.symm.trans hother
              | present _ hother _ _ => exact absurd hother hfit

theorem unpack_eq_ok {group : CifGroup} {c : CifContainer} :
    CifContainer.unpack group data = .ok c ↔
      ∃ enables, Container.unpack group.enables data = .ok enables ∧
        ∃ cells, Reads enables.cells data group.content group.enables.bits cells ∧
          c = ⟨group, enables, cells⟩ := by
  rw [unpack, Fallible.bind_eq_ok]
  constructor
  · rintro ⟨enables, hword, h⟩
    obtain ⟨cells, hcells, hresult⟩ := Fallible.bind_eq_ok.mp h
    cases hresult
    exact ⟨enables, hword, cells, readPayload_eq_ok.mp hcells, rfl⟩
  · rintro ⟨enables, hword, cells, hcells, rfl⟩
    exact ⟨enables, hword, Fallible.bind_eq_ok.mpr ⟨cells, readPayload_eq_ok.mpr hcells, rfl⟩⟩

theorem Reads.fits (h : Reads enables data contents position cells)
    (hstart : position ≤ 8 * data.size) :
    position + payloadBits enables contents ≤ 8 * data.size := by
  induction h with
  | done => exact hstart
  | absent hset _ ih =>
      rw [payloadBits_absent hset]
      exact ih hstart
  | present hset hfit _ _ ih =>
      rw [payloadBits_present hset, ← Nat.add_assoc]
      exact ih hfit

end CifContainer

end RadioPacket
