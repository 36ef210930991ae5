import RadioPacket.Cif.Stream
import RadioPacket.Proofs.Cif.Reachable
import RadioPacket.Proofs.Container.WireFormat

/-!
# The wire format of a group

Packing a group writes the indicator word and then moves a cursor over the payload: an announced
field is written and the cursor goes behind it, any other field is passed over.  So the writers put
the stream of the word in front of the streams of the announced fields, wherever these start.
-/

namespace RadioPacket

theorem CifContent.written {content : CifContent} {cell : Cell} (hholds : content.slot.Holds cell)
    (hinner : content.Built) :
    (content.type.stream cell).length = content.type.bits ∧
      ∀ position, Bits.Puts (content.type.writeInto cell position) position
        (content.type.stream cell) := by
  have hwritten : content.slot.Written [] cell := by
    refine hholds.written trivial ?_ []
    intro layout hrecord
    exact (hinner layout (CifContent.type_of_record? hrecord)).written
  exact ⟨hwritten.width, hwritten.puts⟩

namespace CifContainer

variable {enables : List Cell} {content : CifContent} {contents : List CifContent} {cell : Cell}
  {cells : List Cell}

/-! One equation for each way in which a field is dealt with. -/

theorem payloadStream_absent (h : Cell.isSetAt enables content.enable = false) :
    payloadStream enables (content :: contents) (cell :: cells) =
      payloadStream enables contents cells := by
  rw [payloadStream, h]
  rfl

theorem payloadStream_present (h : Cell.isSetAt enables content.enable = true) :
    payloadStream enables (content :: contents) (cell :: cells) =
      content.type.stream cell ++ payloadStream enables contents cells := by
  rw [payloadStream, if_pos h]

theorem writePayload_absent (h : Cell.isSetAt enables content.enable = false) (position : Nat)
    (data : Bytes) :
    writePayload enables (content :: contents) (cell :: cells) position data =
      writePayload enables contents cells position data := by
  rw [writePayload, h]
  rfl

theorem writePayload_present (h : Cell.isSetAt enables content.enable = true) (position : Nat)
    (data : Bytes) :
    writePayload enables (content :: contents) (cell :: cells) position data =
      writePayload enables contents cells (position + content.type.bits)
        (content.type.writeInto cell position data) := by
  rw [writePayload, if_pos h]

theorem payloadStream_eq_flatten (enables : List Cell) (contents : List CifContent)
    (cells : List Cell) :
    payloadStream enables contents cells =
      (List.zipWith (fun content cell =>
        if Cell.isSetAt enables content.enable then content.type.stream cell else [])
        contents cells).flatten := by
  induction contents generalizing cells with
  | nil => rfl
  | cons content contents ih =>
      cases cells with
      | nil => rfl
      | cons cell cells => rw [payloadStream, ih, List.zipWith_cons_cons, List.flatten_cons]

theorem length_payloadStream
    (hholds : List.Forall₂ (fun content cell => content.slot.Holds cell) contents cells)
    (hinner : ∀ content ∈ contents, content.Built) :
    (payloadStream enables contents cells).length = payloadBits enables contents := by
  induction hholds with
  | nil => rfl
  | @cons content cell contents cells hcell _ ih =>
      obtain ⟨hfirst, hrest⟩ := List.forall_mem_cons.mp hinner
      cases hset : Cell.isSetAt enables content.enable with
      | false => rw [payloadStream_absent hset, payloadBits_absent hset, ih hrest]
      | true =>
          obtain ⟨hwidth, _⟩ := CifContent.written hcell hfirst
          rw [payloadStream_present hset, payloadBits_present hset, List.length_append, hwidth,
            ih hrest]

/-- The payload is put where the cursor starts. -/
theorem puts_writePayload (enables : List Cell)
    (hholds : List.Forall₂ (fun content cell => content.slot.Holds cell) contents cells)
    (hinner : ∀ content ∈ contents, content.Built) :
    ∀ position, Bits.Puts (writePayload enables contents cells position) position
      (payloadStream enables contents cells) := by
  induction hholds with
  | nil => exact fun position => Bits.Puts.skip position 0
  | @cons content cell contents cells hcell _ ih =>
      intro position
      obtain ⟨hfirst, hrest⟩ := List.forall_mem_cons.mp hinner
      cases hset : Cell.isSetAt enables content.enable with
      | false =>
          rw [payloadStream_absent hset]
          exact (ih hrest position).congr (writePayload_absent hset position)
      | true =>
          obtain ⟨hwidth, hputs⟩ := CifContent.written hcell hfirst
          have hbehind := ih hrest (position + content.type.bits)
          rw [← hwidth] at hbehind
          rw [payloadStream_present hset]
          refine ((hputs position).append hbehind).congr ?_
          intro data
          rw [writePayload_present hset, hwidth]
          rfl

/-! ## Packed containers -/

variable {c : CifContainer}

theorem Fits.length_word (h : c.Fits) : c.enables.stream.length = 32 := by
  have hwritten := h.word.built.written c.enables.cells h.word.holds
  rw [Container.stream, hwritten.width, h.layout, h.built.word_bits]

theorem Fits.length_stream (h : c.Fits) : c.stream.length = c.packedBits := by
  rw [stream, packedBits, List.length_append, h.length_word, h.built.word_bits,
    length_payloadStream h.holds fun _ hcontent => h.inner hcontent]

/-- The word is put first, and the payload behind it. -/
theorem Fits.puts (h : c.Fits) :
    Bits.Puts (writePayload c.enables.cells c.group.content c.cells c.group.enables.bits ∘
      c.enables.layout.writeInto c.enables.cells 0) 0 c.stream := by
  have hword := (h.word.built.written c.enables.cells h.word.holds).puts 0
  have hwidth : (c.enables.layout.stream c.enables.cells).length = c.group.enables.bits := by
    rw [h.built.word_bits]
    exact h.length_word
  have hpayload := puts_writePayload c.enables.cells h.holds
    (fun _ hcontent => h.inner hcontent) (0 + c.group.enables.bits)
  rw [← hwidth] at hpayload
  refine (hword.append hpayload).congr ?_
  intro data
  rw [hwidth, Nat.zero_add]

theorem Fits.size_pack (h : c.Fits) : c.pack.size = Bits.bytesFor c.packedBits := by
  have hsize := h.puts.size_eq (Bits.zeros (Bits.bytesFor c.packedBits))
  rw [Bits.zeros, Array.size_replicate] at hsize
  exact hsize

theorem Fits.length_stream_le (h : c.Fits) : c.stream.length ≤ 8 * Bits.bytesFor c.packedBits := by
  rw [h.length_stream]
  exact Bits.bytesFor_le_iff.mp (Nat.le_refl _)

theorem Fits.window_pack (h : c.Fits) : Bits.window c.pack 0 c.packedBits = c.stream := by
  rw [← h.length_stream]
  exact h.puts.window_zeros h.length_stream_le

theorem Fits.window_parts (h : c.Fits) :
    Bits.window c.pack 0 32 = c.enables.stream ∧
      Bits.window c.pack 32 (payloadBits c.enables.cells c.group.content) =
        payloadStream c.enables.cells c.group.content c.cells := by
  have hwindow := h.window_pack
  rw [packedBits, h.built.word_bits, Bits.window_add, stream] at hwindow
  exact List.append_inj hwindow (by rw [Bits.length_window, h.length_word])

/-- A packed container is its stream, filled up with zeros to whole bytes. -/
theorem Fits.ofBytes_pack (h : c.Fits) :
    Bits.ofBytes c.pack = c.stream ++ Bits.blank (8 * c.pack.size - c.packedBits) := by
  have hbits : Bits.ofBytes c.pack =
      c.stream ++ Bits.blank (8 * Bits.bytesFor c.packedBits - c.stream.length) :=
    h.puts.ofBytes_zeros h.length_stream_le
  rw [hbits, h.size_pack, h.length_stream]

end CifContainer

/-! ## What the stream is made of -/

/-- What the payload field at an index sends: nothing when the container shows nothing there, and
otherwise the pattern of the value or the bits of the structure. -/
inductive CifContainer.Sends (c : CifContainer) (index : Nat) : List Bool → Prop where
  | absent : c.get? index = none → Sends c index []
  | leaf {content : CifContent} {type : LeafType} {value : Scalar} {pattern : Nat} :
      c.group.content[index]? = some content → content.type = .leaf type →
      c.get? index = some (.scalar value) → type.encode value = .ok pattern →
      Sends c index (Bits.ofNat type.bits pattern)
  | record {content : CifContent} {inner : Container} {bits : List Bool} :
      c.group.content[index]? = some content → content.type = .record inner.layout →
      c.get? index = some (.record inner) → inner.Spells bits → Sends c index bits

/-- The bits that a container of a group stands for: its word of 32 bits, and then what its payload
fields send, in the order of the group. -/
structure CifContainer.Spells (c : CifContainer) (word : List Bool) (pieces : List (List Bool)) :
    Prop where
  indicators : c.enables.Spells word
  width : word.length = 32
  fields : pieces.length = c.group.content.length
  sends : ∀ index piece, pieces[index]? = some piece → c.Sends index piece

namespace CifContainer

variable {c : CifContainer}

theorem entry?_eq {index : Nat} {content : CifContent} {cell : Cell}
    (hcontent : c.group.content[index]? = some content) (hcell : c.cells[index]? = some cell) :
    c.entry? index = some (content, cell) := by
  simp only [ entry?, hcontent, hcell]
  rfl

theorem get?_eq {index : Nat} {content : CifContent} {cell : Cell}
    (hcontent : c.group.content[index]? = some content) (hcell : c.cells[index]? = some cell) :
    c.get? index =
      if Cell.isSetAt c.enables.cells content.enable then some (content.type.valueOf cell)
      else none := by
  rw [get?, entry?_eq hcontent hcell]
  rfl

theorem sends_of_holds {index : Nat} {content : CifContent} {cell : Cell}
    (hcontent : c.group.content[index]? = some content) (hcell : c.cells[index]? = some cell)
    (hset : Cell.isSetAt c.enables.cells content.enable = true)
    (hholds : content.slot.Holds cell) (hinner : content.Built) :
    c.Sends index (content.type.stream cell) := by
  have hget := get?_eq hcontent hcell
  rw [if_pos hset] at hget
  cases hholds with
  | enable hitem => cases hitem
  | @leaf _ field type value mode hitem htype hnormal =>
      cases hitem
      have hleaf : content.type = .leaf type := htype
      rw [hleaf] at hget ⊢
      exact .leaf hcontent hleaf hget (LeafType.encode_of_normal hnormal)
  | @record _ field inner cells mode hitem htype hcells =>
      cases hitem
      have hrecord : content.type = .record inner := htype
      rw [hrecord] at hget ⊢
      exact .record hcontent hrecord hget ((hinner inner hrecord).spells cells hcells)
  | reserved hitem => cases hitem

/-- The stream of a container that fits is spelled by what the container shows. -/
theorem Fits.spells (h : c.Fits) :
    ∃ pieces, c.Spells c.enables.stream pieces ∧ c.stream = c.enables.stream ++ pieces.flatten := by
  refine ⟨_, ?_, by rw [stream, payloadStream_eq_flatten]⟩
  refine ⟨h.word.built.spells c.enables.cells h.word.holds, h.length_word, ?_, ?_⟩
  · rw [List.length_zipWith, ← h.holds.length_eq, Nat.min_self]
  · intro index piece hpiece
    obtain ⟨content, cell, hcontent, hcell, rfl⟩ := List.getElem?_zipWith_eq_some.mp hpiece
    cases hset : Cell.isSetAt c.enables.cells content.enable with
    | false =>
        have hget := get?_eq hcontent hcell
        rw [hset] at hget
        exact .absent hget
    | true =>
        exact sends_of_holds hcontent hcell hset (forall₂_at h.holds hcontent hcell)
          (h.inner (List.mem_of_getElem? hcontent))

end CifContainer

end RadioPacket
