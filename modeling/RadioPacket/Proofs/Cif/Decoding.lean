import Mathlib.Algebra.GroupWithZero.Nat
import RadioPacket.Proofs.Cif.Reading

/-!
# What a group decodes, and what it refuses

The indicator word says which fields follow it, and these are read and nothing else.  Bytes behind
them are ignored, bytes that end before them are refused wherever they end, and apart from that only
a number that no symbol of an announced enumeration has is refused.
-/

namespace RadioPacket

namespace CifContent

/-- The leaf fields that are present in a payload field that starts at bit `position`. -/
def presentLeaves (data : Bytes) (position : Nat) (content : CifContent) : List LeafSite :=
  match content.type with
  | .leaf type => [⟨content.name, type, position⟩]
  | .record layout => layout.presentLeaves data position

/-- The bit of the field in the first word is set. -/
def isAnnounced (data : Bytes) (content : CifContent) : Bool := Bits.bitAt data (31 - content.bit)

/-- Reading a payload field fails with the fault of its first present leaf field that has one. -/
theorem error?_readAt {content : CifContent} {data : Bytes} {position : Nat}
    (hinner : content.Built) (hfit : position + content.type.bits ≤ 8 * data.size) :
    Fallible.error? (content.type.readAt content.name content.mode data position) =
      (content.presentLeaves data position).findSome? (LeafSite.fault? data) := by
  rw [presentLeaves]
  cases htype : content.type with
  | leaf type =>
      rw [htype] at hfit
      rw [FieldType.readAt, Fallible.error?_map, List.findSome?_singleton]
      exact LeafSite.error?_readAt ⟨content.name, type, position⟩ hfit
  | record layout =>
      rw [htype] at hfit
      rw [FieldType.readAt, Fallible.error?_map]
      exact (hinner layout htype).error?_readAt data position hfit

end CifContent

namespace CifGroup

/-- Where the payload field at an index starts: behind the word and the announced fields in front of
it. -/
def startOf (group : CifGroup) (data : Bytes) (index : Nat) : Nat :=
  32 + (((group.content.take index).filter (CifContent.isAnnounced data)).map
    fun content => content.type.bits).sum

/-- A leaf field is present in a payload field that the bytes announce. -/
def Announces (group : CifGroup) (data : Bytes) (site : LeafSite) : Prop :=
  ∃ (index : Nat) (content : CifContent), group.content[index]? = some content ∧
    content.isAnnounced data = true ∧
    site ∈ content.presentLeaves data (group.startOf data index)

end CifGroup

theorem LeafSite.fault?_eq_some {data : Bytes} {site : LeafSite} {error : UnpackError}
    (h : site.fault? data = some error) :
    ∃ table, site.type.table? = some table ∧ table.symbol? (site.raw data) = none ∧
      error = .invalidValue site.field (.notMember table.name (toString (site.raw data))) := by
  rw [fault?] at h
  cases htable : site.type.table? with
  | none => simp [htable] at h
  | some table =>
      simp only [htable] at h
      split at h
      · cases h
      · next hmember =>
          cases h
          exact ⟨table, rfl, by simpa using hmember, rfl⟩

theorem Bits.bitAt_extract {data : Bytes} {size q : Nat} (hq : q < 8 * size) :
    bitAt (data.extract 0 size) q = bitAt data q := by
  have hbyte : q / 8 < size := by omega
  have hsame : (data.extract 0 size)[q / 8]? = data[q / 8]? := by
    rw [Array.getElem?_extract, Nat.zero_add]
    by_cases hdata : q / 8 < data.size
    · rw [if_pos (by omega)]
    · rw [if_neg (by omega), Array.getElem?_eq_none (Nat.le_of_not_lt hdata)]
  rw [bitAt, bitAt, hsame]

namespace CifContainer

variable {enables : List Cell} {data other : Bytes} {contents : List CifContent}
  {position : Nat} {cells : List Cell}

theorem payloadBits_eq_sum {announced : CifContent → Bool}
    (h : ∀ content ∈ contents, Cell.isSetAt enables content.enable = announced content) :
    payloadBits enables contents =
      ((contents.filter announced).map fun content => content.type.bits).sum := by
  induction contents with
  | nil => rfl
  | cons content contents ih =>
      obtain ⟨hfirst, hrest⟩ := List.forall_mem_cons.mp h
      rw [List.filter_cons, ← hfirst]
      cases hset : Cell.isSetAt enables content.enable with
      | false =>
          rw [payloadBits_absent hset, ih hrest]
          rfl
      | true =>
          rw [payloadBits_present hset, ih hrest]
          rfl

/-! ## Bytes that agree on the announced fields -/

theorem Reads.congr (h : Reads enables data contents position cells)
    (hinner : ∀ content ∈ contents, content.Built)
    (hfit : position + payloadBits enables contents ≤ 8 * other.size)
    (hsame : Bits.Agree data other position (payloadBits enables contents)) :
    Reads enables other contents position cells := by
  induction h with
  | done => exact .done
  | absent hset _ ih =>
      rw [payloadBits_absent hset] at hfit hsame
      exact .absent hset (ih (List.forall_mem_cons.mp hinner).2 hfit hsame)
  | present hset hfirst hread _ ih =>
      obtain ⟨hfirstinner, hrestinner⟩ := List.forall_mem_cons.mp hinner
      rw [payloadBits_present hset] at hfit hsame
      have hother := CifContent.readAt_congr hfirstinner hfirst (by omega)
        (hsame.part (Nat.le_refl _) (by omega))
      refine .present hset (by omega) (hother.symm.trans hread) ?_
      exact ih hrestinner (by omega) (hsame.part (by omega) (by omega))

theorem Reads.short (h : Reads enables data contents position cells)
    (hinner : ∀ content ∈ contents, content.Built)
    (hstart : position ≤ 8 * other.size)
    (hend : 8 * other.size < position + payloadBits enables contents)
    (hsame : ∀ q < 8 * other.size, Bits.bitAt data q = Bits.bitAt other q) :
    ∃ required, readPayload enables other contents position =
      .error (.packetTooShort required other.size) := by
  induction h with
  | done => exact absurd hend (Nat.not_lt_of_le hstart)
  | absent hset _ ih =>
      rw [payloadBits_absent hset] at hend
      obtain ⟨required, hshort⟩ := ih (List.forall_mem_cons.mp hinner).2 hstart hend
      refine ⟨required, ?_⟩
      rw [readPayload_absent hset, hshort]
      rfl
  | @present content rest position cell cells hset hfirst hread _ ih =>
      obtain ⟨hfirstinner, hrestinner⟩ := List.forall_mem_cons.mp hinner
      rw [payloadBits_present hset] at hend
      by_cases hfits : position + content.type.bits ≤ 8 * other.size
      · -- The field is complete, so it is read as before and the end comes later.
        have hother := CifContent.readAt_congr hfirstinner hfirst hfits
          fun q _ hq => hsame q (by omega)
        obtain ⟨required, hshort⟩ := ih hrestinner hfits (by omega)
        refine ⟨required, ?_⟩
        rw [readPayload_present hset hfits, ← hother, hread, hshort]
        rfl
      · have hsize := Bits.lt_bytesFor_iff.mpr (Nat.lt_of_not_le hfits)
        exact ⟨_, readPayload_short hset hsize⟩

/-! ## Errors -/

/-- Reading the payload fails because the bytes end, or with the fault of a leaf field that is
present in an announced field. -/
theorem eq_error_of_readPayload {error : UnpackError}
    (hinner : ∀ content ∈ contents, content.Built)
    (h : readPayload enables data contents position = .error error) :
    (∃ required, error = .packetTooShort required data.size ∧ data.size < required) ∨
      ∃ (index : Nat) (content : CifContent) (site : LeafSite), contents[index]? = some content ∧
        Cell.isSetAt enables content.enable = true ∧
        site ∈ content.presentLeaves data
          (position + payloadBits enables (contents.take index)) ∧
        site.fault? data = some error := by
  induction contents generalizing position with
  | nil => cases h
  | cons content contents ih =>
      obtain ⟨hfirstinner, hrestinner⟩ := List.forall_mem_cons.mp hinner
      cases hset : Cell.isSetAt enables content.enable with
      | false =>
          rw [readPayload_absent hset, Fallible.map_eq_error] at h
          rcases ih hrestinner h with hshort | ⟨index, found, site, hfound, hsetfound, hsite⟩
          · exact .inl hshort
          · refine .inr ⟨index + 1, found, site, hfound, hsetfound, ?_⟩
            rw [List.take_succ_cons, payloadBits_absent hset]
            exact hsite
      | true =>
          by_cases hfit : position + content.type.bits ≤ 8 * data.size
          · rw [readPayload_present hset hfit, Fallible.bind_eq_error] at h
            rcases h with hread | ⟨cell, _, h⟩
            · have hfault := content.error?_readAt hfirstinner hfit
              rw [hread] at hfault
              obtain ⟨site, hsite, hcause⟩ := List.exists_of_findSome?_eq_some hfault.symm
              exact .inr ⟨0, content, site, rfl, hset, hsite, hcause⟩
            · rcases Fallible.bind_eq_error.mp h with hrest | ⟨_, _, hresult⟩
              · rcases ih hrestinner hrest with
                  hshort | ⟨index, found, site, hfound, hsetfound, hsite⟩
                · exact .inl hshort
                · refine .inr ⟨index + 1, found, site, hfound, hsetfound, ?_⟩
                  rw [List.take_succ_cons, payloadBits_present hset, ← Nat.add_assoc]
                  exact hsite
              · cases hresult
          · have hsize := Bits.lt_bytesFor_iff.mpr (Nat.lt_of_not_le hfit)
            rw [readPayload_short hset hsize] at h
            cases h
            exact .inl ⟨_, rfl, hsize⟩

end CifContainer

namespace CifGroup.Built

variable {group : CifGroup}

/-- The place where a field is read is behind the fields that the bytes announce in front of it. -/
theorem startOf_eq (h : group.Built) {data : Bytes} {enables : Container}
    (hword : Container.unpack group.enables data = .ok enables) (index : Nat) :
    32 + CifContainer.payloadBits enables.cells (group.content.take index) =
      group.startOf data index := by
  rw [startOf, CifContainer.payloadBits_eq_sum]
  intro content hcontent
  exact h.isSetAt_word hword (List.mem_of_mem_take hcontent)

theorem packedBits_eq (h : group.Built) {data : Bytes} {enables : Container} {cells : List Cell}
    (hword : Container.unpack group.enables data = .ok enables) :
    (⟨group, enables, cells⟩ : CifContainer).packedBits =
      group.startOf data group.content.length := by
  rw [CifContainer.packedBits, h.word_bits, ← h.startOf_eq hword, List.take_length]

theorem le_size_of_unpack_word (h : group.Built) {data : Bytes} {enables : Container}
    (hword : Container.unpack group.enables data = .ok enables) : 4 ≤ data.size := by
  by_contra hshort
  rw [h.unpack_word_short (Nat.lt_of_not_le hshort)] at hword
  cases hword

theorem unpack_short (h : group.Built) {data other : Bytes} {c : CifContainer}
    (hunpack : CifContainer.unpack group data = .ok c)
    (hsize : 8 * other.size < c.packedBits)
    (hsame : ∀ q < 8 * other.size, Bits.bitAt data q = Bits.bitAt other q) :
    ∃ required, CifContainer.unpack group other = .error (.packetTooShort required other.size) := by
  obtain ⟨enables, hword, cells, hreads, rfl⟩ := CifContainer.unpack_eq_ok.mp hunpack
  have hbits := h.word_bits
  by_cases hother : other.size < 4
  · refine ⟨4, ?_⟩
    rw [CifContainer.unpack, h.unpack_word_short hother]
    rfl
  · have hdata := h.le_size_of_unpack_word hword
    have hsameword := h.unpack_word_congr hdata (by omega) fun q _ hq => hsame q (by omega)
    obtain ⟨required, hshort⟩ := hreads.short (fun _ hcontent => h.inner hcontent)
      (by omega) hsize hsame
    refine ⟨required, ?_⟩
    rw [CifContainer.unpack, hsameword, hword, Fallible.bind_eq_error]
    refine .inr ⟨enables, rfl, ?_⟩
    rw [hshort]
    rfl

theorem unpack_congr (h : group.Built) {data other : Bytes} {c : CifContainer}
    (hunpack : CifContainer.unpack group data = .ok c) (hsize : c.packedBits ≤ 8 * other.size)
    (hsame : ∀ q < c.packedBits, Bits.bitAt other q = Bits.bitAt data q) :
    CifContainer.unpack group other = .ok c := by
  obtain ⟨enables, hword, cells, hreads, rfl⟩ := CifContainer.unpack_eq_ok.mp hunpack
  have hbits := h.word_bits
  have hdata := h.le_size_of_unpack_word hword
  have htotal : (⟨group, enables, cells⟩ : CifContainer).packedBits =
      group.enables.bits + CifContainer.payloadBits enables.cells group.content := rfl
  rw [htotal] at hsize hsame
  have hfirst : Bits.Agree data other 0 32 := fun q _ hq => (hsame q (by omega)).symm
  have hsameword := h.unpack_word_congr hdata (by omega) hfirst
  have hother := hreads.congr (fun _ hcontent => h.inner hcontent) hsize
    fun q _ hq => (hsame q hq).symm
  exact CifContainer.unpack_eq_ok.mpr ⟨enables, hsameword.trans hword, cells, hother, rfl⟩

/-- Bytes are refused when they end too early, or for a number without a symbol. -/
theorem eq_error_of_unpack (h : group.Built) {data : Bytes} {error : UnpackError}
    (hunpack : CifContainer.unpack group data = .error error) :
    (∃ required, error = .packetTooShort required data.size ∧ data.size < required) ∨
      ∃ site, group.Announces data site ∧ site.fault? data = some error := by
  rcases Fallible.bind_eq_error.mp hunpack with hword | ⟨enables, hword, hpayload⟩
  · by_cases hsize : data.size < 4
    · rw [h.unpack_word_short hsize] at hword
      cases hword
      exact .inl ⟨4, rfl, hsize⟩
    · obtain ⟨enables, hok⟩ := h.unpack_word (Nat.le_of_not_lt hsize)
      cases hok.symm.trans hword
  · rcases Fallible.bind_eq_error.mp hpayload with hcells | ⟨_, _, hresult⟩
    · rcases CifContainer.eq_error_of_readPayload (fun _ hcontent => h.inner hcontent) hcells with
        hshort | ⟨index, content, site, hcontent, hset, hsite, hfault⟩
      · exact .inl hshort
      · rw [h.word_bits, h.startOf_eq hword] at hsite
        rw [h.isSetAt_word hword (List.mem_of_getElem? hcontent)] at hset
        exact .inr ⟨site, ⟨index, content, hcontent, hset, hsite⟩, hfault⟩
    · cases hresult

theorem bytesFor_le_size (h : group.Built) {data : Bytes} {c : CifContainer}
    (hunpack : CifContainer.unpack group data = .ok c) :
    Bits.bytesFor c.packedBits ≤ data.size := by
  obtain ⟨enables, hword, cells, hreads, rfl⟩ := CifContainer.unpack_eq_ok.mp hunpack
  have hdata := h.le_size_of_unpack_word hword
  have hbits := h.word_bits
  exact Bits.bytesFor_le_iff.mpr (hreads.fits (by omega))

/-- Every prefix of decoded bytes that is too short for what they announce is refused. -/
theorem unpack_extract (h : group.Built) {data : Bytes} {c : CifContainer}
    (hunpack : CifContainer.unpack group data = .ok c) {size : Nat}
    (hsize : size < Bits.bytesFor c.packedBits) :
    ∃ required, CifContainer.unpack group (data.extract 0 size) =
      .error (.packetTooShort required size) := by
  have hlong := h.bytesFor_le_size hunpack
  have hlength : (data.extract 0 size).size = size := by
    rw [Array.size_extract]
    omega
  have hshort : 8 * (data.extract 0 size).size < c.packedBits := by
    rw [hlength]
    exact Bits.lt_bytesFor_iff.mp hsize
  have hsame : ∀ q < 8 * (data.extract 0 size).size,
      Bits.bitAt data q = Bits.bitAt (data.extract 0 size) q := by
    rw [hlength]
    exact fun q hq => (Bits.bitAt_extract hq).symm
  obtain ⟨required, hrequired⟩ := h.unpack_short hunpack hshort hsame
  rw [hlength] at hrequired
  exact ⟨required, hrequired⟩

/-- Decoding a group takes the word and the fields that it announces, which is as many bits as the
container packs to.  All other bits are ignored, and no shorter prefix is accepted.  Bytes are
refused only because they are too short, or because an announced enumeration holds a number that no
symbol has; no read of bits ever fails.

The last rests on the check of leaf types, as for structures: what is wider than the check allows
cannot be read. -/
theorem unpack_consumes_announced (h : group.Built) (data : Bytes) :
    (∀ c, CifContainer.unpack group data = .ok c →
      c.packedBits = group.startOf data group.content.length ∧
      Bits.bytesFor c.packedBits ≤ data.size ∧
      (∀ other : Bytes, Bits.bytesFor c.packedBits ≤ other.size →
        (∀ q < c.packedBits, Bits.bitAt other q = Bits.bitAt data q) →
          CifContainer.unpack group other = .ok c) ∧
      ∀ size < Bits.bytesFor c.packedBits, ∃ required,
        CifContainer.unpack group (data.extract 0 size) =
          .error (.packetTooShort required size)) ∧
    (∀ error, CifContainer.unpack group data = .error error →
      (∃ required, error = .packetTooShort required data.size ∧ data.size < required) ∨
        ∃ site table, group.Announces data site ∧ site.type.table? = some table ∧
          table.symbol? (site.raw data) = none ∧
          error = .invalidValue site.field
            (.notMember table.name (toString (site.raw data)))) ∧
    (∀ cause, CifContainer.unpack group data ≠ .error (.bits cause)) ∧
    ∀ (shape : LeafShape) (position : Nat), 64 < shape.bits →
      Bits.readPattern data position shape.bits = .error (.bits .tooManyBits) := by
  have herror : ∀ error, CifContainer.unpack group data = .error error →
      (∃ required, error = .packetTooShort required data.size ∧ data.size < required) ∨
        ∃ site table, group.Announces data site ∧ site.type.table? = some table ∧
          table.symbol? (site.raw data) = none ∧
          error = .invalidValue site.field
            (.notMember table.name (toString (site.raw data))) := by
    intro error hunpack
    rcases h.eq_error_of_unpack hunpack with hshort | ⟨site, hsite, hfault⟩
    · exact .inl hshort
    · obtain ⟨table, htable, hunknown, hcause⟩ := site.fault?_eq_some hfault
      exact .inr ⟨site, table, hsite, htable, hunknown, hcause⟩
  refine ⟨?_, herror, ?_, fun _ _ hwide => Bits.readPattern_of_wide hwide⟩
  · intro c hunpack
    refine ⟨?_, h.bytesFor_le_size hunpack, ?_, fun size hsize => h.unpack_extract hunpack hsize⟩
    · obtain ⟨enables, hword, cells, _, rfl⟩ := CifContainer.unpack_eq_ok.mp hunpack
      exact h.packedBits_eq hword
    · intro other hother hsame
      exact h.unpack_congr hunpack (Bits.bytesFor_le_iff.mp hother) hsame
  · intro cause hunpack
    rcases herror _ hunpack with ⟨_, hkind, _⟩ | ⟨_, _, _, _, _, hkind⟩
    · cases hkind
    · cases hkind

end CifGroup.Built

namespace CifBlueprint.Sample

/-- The word announces the structure and the gain, which are 19 bits; a byte behind them is ignored,
and one byte less is refused. -/
theorem unpack_tuned :
    tuned.Built ∧ ∃ c, CifContainer.unpack tuned #[32, 128, 0, 0, 32, 0, 0, 255] = .ok c ∧
      c.packedBits = 51 ∧ CifContainer.unpack tuned #[32, 128, 0, 0, 32, 0, 0] = .ok c ∧
      ∃ required, CifContainer.unpack tuned #[32, 128, 0, 0, 32, 0] =
        .error (.packetTooShort required 6) := by
  obtain ⟨hok, _⟩ :=
    CifGroup.Built.unpack_consumes_announced built_tuned #[32, 128, 0, 0, 32, 0, 0, 255]
  have hdecodes : (CifContainer.unpack tuned #[32, 128, 0, 0, 32, 0, 0, 255]).isOk = true := by
    decide +kernel
  cases hunpack : CifContainer.unpack tuned #[32, 128, 0, 0, 32, 0, 0, 255] with
  | error error =>
      rw [hunpack] at hdecodes
      cases hdecodes
  | ok c =>
      obtain ⟨hbits, _, hcongr, hshort⟩ := hok c hunpack
      have hstart : tuned.startOf #[32, 128, 0, 0, 32, 0, 0, 255] tuned.content.length = 51 := by
        decide +kernel
      rw [hstart] at hbits
      rw [hbits] at hcongr hshort
      exact ⟨built_tuned, c, rfl, hbits, hcongr _ (by decide) (by decide), hshort 6 (by decide)⟩

end CifBlueprint.Sample

end RadioPacket
