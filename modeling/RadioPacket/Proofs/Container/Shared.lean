import RadioPacket.Proofs.Container.Decoding
import RadioPacket.Proofs.Container.Reachable
import RadioPacket.Proofs.Layout.Derived

/-!
# Reading shared fields

A derived structure has its own slots, with other indices, but the slots that it shares with its
base are read from the same bits and stand behind the same gates.  So whatever bytes the derived
structure accepts the base accepts as well, and both show the same under every name of the base.
-/

namespace RadioPacket

namespace Layout

variable {base derived : Layout} {data : Bytes}

section Shared

variable (hbase : base.Linked) (hderived : derived.Linked) (h : base.Embeds derived)
  {slot other : Slot} (hslot : slot ∈ base.slots) (hother : other ∈ derived.slots)
  (hitem : other.item = slot.item) (hposition : other.position = slot.position)

include hbase hderived h hslot hother hitem

theorem opens_shared {field : Field} (hfield : slot.item = .field field) (data : Bytes)
    (start : Nat) :
    Slot.opens derived.slots data start other.link =
      Slot.opens base.slots data start slot.link := by
  rcases hbase.link_cases hderived h hslot hother hitem hfield with
    ⟨hlink, hotherlink⟩ | ⟨i, j, gate, copy, hlink, hgate, hotherlink, hcopy, hsame, hplace⟩
  · rw [hlink, hotherlink]
    rfl
  · have hbits : copy.bits = gate.bits := congrArg Item.bits hsame
    simp only [hlink, hotherlink, Slot.opens, hgate, hcopy, hbits, hplace]

include hposition

theorem readCell_shared (hsolid : slot.item.isReserved = false) (data : Bytes) (start : Nat) :
    other.readCell derived.slots data start = slot.readCell base.slots data start := by
  cases hkind : slot.item with
  | field field =>
      have hopen := opens_shared hbase hderived h hslot hother hitem hkind data start
      have hotherfield := hitem.trans hkind
      simp only [Slot.readCell, hkind, hotherfield, hopen, hposition, Slot.freshCell]
  | enable enable =>
      have hotherenable := hitem.trans hkind
      simp only [Slot.readCell, Slot.gateCell, hkind, hotherenable, hposition]
  | reserved run =>
      rw [hkind] at hsolid
      cases hsolid

end Shared

/-- When all slots of the derived structure can be read, so can all slots of the base. -/
theorem Embeds.exists_cells (h : base.Embeds derived) (hbase : base.Linked)
    (hderived : derived.Linked) {cells : List Cell}
    (hcells : List.Forall₂ (fun slot cell => slot.readCell derived.slots data 0 = .ok cell)
      derived.slots cells) :
    ∃ shared, List.Forall₂ (fun slot cell => slot.readCell base.slots data 0 = .ok cell)
      base.slots shared := by
  have hread : ∀ slot ∈ base.slots, ∃ cell, slot.readCell base.slots data 0 = .ok cell := by
    intro slot hslot
    cases hsolid : slot.item.isReserved with
    | false =>
        obtain ⟨other, hother, hitem, hposition⟩ := h slot hslot hsolid
        obtain ⟨j, hj⟩ := List.mem_iff_getElem?.mp hother
        obtain ⟨cell, _, hcell⟩ := exists_at hcells hj
        rw [readCell_shared hbase hderived h hslot hother hitem hposition hsolid] at hcell
        exact ⟨cell, hcell⟩
    | true =>
        cases hitem : slot.item with
        | field _ => simp [hitem, Item.isReserved] at hsolid
        | enable _ => simp [hitem, Item.isReserved] at hsolid
        | reserved _ => exact ⟨slot.gateCell base.slots data 0, by simp only [Slot.readCell, hitem]⟩
  have hcell : Nonempty Cell := ⟨.reserved⟩
  choose! cell hcell using hread
  exact ⟨base.slots.map cell, List.forall₂_map_right_iff.mpr (List.forall₂_same.mpr hcell)⟩

end Layout

namespace Container

theorem read_eq {c : Container} {name : String} {index : Nat}
    (h : c.layout.index? name = some index) : c.read name = .ok (c.get? index) := by
  rw [read, Container.index, h]
  rfl

end Container

namespace Layout

variable {base derived : Layout} {data : Bytes}

/-- A container of the base and one of the derived structure that are read from the same bytes show
the same under the names of the base. -/
theorem Embeds.read_eq (h : base.Embeds derived) (hbase : base.Built) (hderived : derived.Built)
    {shared cells : List Cell}
    (hshared : List.Forall₂ (fun slot cell => slot.readCell base.slots data 0 = .ok cell)
      base.slots shared)
    (hcells : List.Forall₂ (fun slot cell => slot.readCell derived.slots data 0 = .ok cell)
      derived.slots cells)
    {name : String} {slot : Slot} (hfind : base.find? name = some slot)
    (hsolid : slot.item.isReserved = false) :
    (⟨base, shared⟩ : Container).read name = (⟨derived, cells⟩ : Container).read name := by
  obtain ⟨other, hfound, hitem, hposition⟩ := h.find? hbase.sound hderived.sound hfind hsolid
  obtain ⟨i, hindex, hi⟩ := Option.bind_eq_some_iff.mp hfind
  obtain ⟨j, hotherindex, hj⟩ := Option.bind_eq_some_iff.mp hfound
  have hslot : slot ∈ base.slots := List.mem_of_getElem? hi
  have hother : other ∈ derived.slots := List.mem_of_getElem? hj
  obtain ⟨cell, hcell, hread⟩ := exists_at hshared hi
  obtain ⟨copy, hcopy, hcopyread⟩ := exists_at hcells hj
  rw [readCell_shared hbase.linked hderived.linked h hslot hother hitem hposition hsolid,
    hread] at hcopyread
  obtain rfl := Except.ok.inj hcopyread
  rw [Container.read_eq hindex, Container.read_eq hotherindex]
  cases hkind : slot.item with
  | field field =>
      rw [Container.get?_field hi hcell hkind, Container.get?_field hj hcopy (hitem.trans hkind),
        hbase.sound.isOpen_of_readCells hshared hslot hkind,
        hderived.sound.isOpen_of_readCells hcells hother (hitem.trans hkind),
        opens_shared hbase.linked hderived.linked h hslot hother hitem hkind]
  | enable enable =>
      rw [Container.get?_enable hi hcell hkind, Container.get?_enable hj hcopy (hitem.trans hkind)]
  | reserved run =>
      rw [hkind] at hsolid
      cases hsolid

/-- A structure derived without new enables shares the fields and enables of its base, with their
types, modes, positions and gates; and bytes that it accepts the base accepts as well, with the same
value or the same absence under every name of a field or an enable of the base. -/
theorem Built.derived_reads_as_base (hbase : base.Built) {blueprint : Blueprint}
    (hstart : blueprint.base = base.items)
    (hinner : ∀ step ∈ blueprint.steps, ∀ inner, step.record? = some inner → inner.Built)
    (hsteps : ∀ step ∈ blueprint.steps, step.AddsNoEnable)
    (hbuild : blueprint.build = .ok derived) :
    base.Shares derived ∧
      ∀ (data : Bytes) (c : Container), Container.unpack derived data = .ok c →
        ∃ b, Container.unpack base data = .ok b ∧
          ∀ name slot, base.find? name = some slot → slot.item.isReserved = false →
            b.read name = c.read name := by
  have hderived : derived.Built := .derived hbase hstart hinner hbuild
  have h : base.Embeds derived :=
    hbase.linked.embeds hbase.sound hderived.sound hstart hsteps hbuild
  refine ⟨h.shares hbase hderived, ?_⟩
  intro data c hunpack
  obtain ⟨hsize, cells, hcells, rfl⟩ := hderived.sound.unpack_eq_ok.mp hunpack
  obtain ⟨shared, hshared⟩ := h.exists_cells hbase.linked hderived.linked hcells
  have hbytes : base.bytes ≤ derived.bytes := bytes_le_of_build hbase.sound hstart hbuild
  refine ⟨⟨base, shared⟩, ?_, ?_⟩
  · exact hbase.sound.unpack_eq_ok.mpr ⟨hbytes.trans hsize, shared, hshared, rfl⟩
  · intro name slot hfind hsolid
    exact h.read_eq hbase hderived hshared hcells hfind hsolid

namespace Sample

/-- The frame with its structure keeps the gate of the frame, and shows it set in bytes that both
accept. -/
theorem full_reads_as_frame :
    frameLayout.Shares fullLayout ∧ ∃ b c, Container.unpack fullLayout #[246, 7] = .ok c ∧
      Container.unpack frameLayout #[246, 7] = .ok b ∧
        b.read "gate" = .ok (some (.scalar (.bool true))) ∧ c.read "gate" = b.read "gate" := by
  have hinner : ∀ step ∈ full.steps, ∀ inner, step.record? = some inner → inner.Built := by
    intro step hstep inner hinner
    obtain rfl := List.mem_singleton.mp hstep
    cases hinner
    exact built_pairLayout
  have hsteps : ∀ step ∈ full.steps, step.AddsNoEnable := by
    intro step hstep enable
    obtain rfl := List.mem_singleton.mp hstep
    nofun
  obtain ⟨hshares, hreads⟩ :=
    @Built.derived_reads_as_base frameLayout fullLayout built_frameLayout full rfl hinner hsteps rfl
  have hfault : Fallible.error? (Container.unpack fullLayout #[246, 7]) = none := by
    rw [built_fullLayout.error?_unpack (by decide)]
    decide +kernel
  obtain ⟨c, hc⟩ := Fallible.error?_eq_none.mp hfault
  obtain ⟨b, hb, hsame⟩ := hreads _ c hc
  have hgate : Container.unpack frameLayout #[246, 7] =
      .ok ⟨frameLayout, [.enable true, .reserved]⟩ := by rfl
  have hread := hsame "gate" _ rfl rfl
  obtain rfl := Except.ok.inj (hgate.symm.trans hb)
  exact ⟨hshares, _, c, hc, hb, rfl, hread.symm⟩

end Sample

end Layout

end RadioPacket
