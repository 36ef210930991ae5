import RadioPacket.Proofs.Cif.Reading

/-!
# Reachable containers of a group

A container of a group comes from default values or from bytes, and then changes by operations on
its payload fields, on the flags of the indicator word and on the structures inside.  The word of
every such container fits the word of the group, and each payload field has a cell that suits it.
This invariant is what packing and unpacking rest on.
-/

namespace RadioPacket

/-- The word fits the group, and every payload field has a cell that suits it. -/
structure CifContainer.Fits (c : CifContainer) : Prop where
  built : c.group.Built
  word : c.enables.Fits
  layout : c.enables.layout = c.group.enables
  holds : List.Forall₂ (fun content cell => content.slot.Holds cell) c.group.content c.cells

theorem Container.Fits.markEnable {c : Container} (h : c.Fits) {index : Nat} {gate : Slot}
    (hgate : c.layout.slots[index]? = some gate) {enable : Enable}
    (henable : gate.item = .enable enable) (present : Bool) :
    (c.mark (some index) present).Fits := by
  apply h.put
  intro other hother
  cases hgate.symm.trans hother
  exact .enable henable

/-! ## New and decoded cells -/

namespace CifContent

variable {content : CifContent}

theorem holds_freshCell (hinner : content.Built) :
    content.slot.Holds (content.type.freshCell content.mode) := by
  cases htype : content.type with
  | leaf type => exact .leaf rfl htype type.normal_default
  | record layout => exact .record rfl htype (hinner layout htype).holds_freshCells

theorem holds_of_readAt (hinner : content.Built) {data : Bytes} {position : Nat}
    (hfit : position + content.type.bits ≤ 8 * data.size) {cell : Cell}
    (hread : content.type.readAt content.name content.mode data position = .ok cell) :
    content.slot.Holds cell := by
  cases htype : content.type with
  | leaf type =>
      rw [htype] at hfit hread
      obtain ⟨value, hvalue, rfl⟩ := Fallible.map_eq_ok.mp hread
      rw [type.readAt_eq content.name hfit] at hvalue
      exact .leaf rfl htype (LeafType.normal_of_decode (Fallible.eq_ok_of_mapError hvalue))
  | record layout =>
      rw [htype] at hfit hread
      obtain ⟨cells, hcells, rfl⟩ := Fallible.map_eq_ok.mp hread
      exact .record rfl htype
        ((hinner layout htype).holds_of_readAt data position cells hfit hcells)

end CifContent

namespace CifContainer

theorem Reads.holds {enables : List Cell} {data : Bytes} {contents : List CifContent}
    {position : Nat} {cells : List Cell} (h : Reads enables data contents position cells)
    (hinner : ∀ content ∈ contents, content.Built) :
    List.Forall₂ (fun content cell => content.slot.Holds cell) contents cells := by
  induction h with
  | done => exact .nil
  | absent _ _ ih =>
      obtain ⟨hfirst, hrest⟩ := List.forall_mem_cons.mp hinner
      exact .cons (CifContent.holds_freshCell hfirst) (ih hrest)
  | present _ hfit hread _ ih =>
      obtain ⟨hfirst, hrest⟩ := List.forall_mem_cons.mp hinner
      exact .cons (CifContent.holds_of_readAt hfirst hfit hread) (ih hrest)

theorem fits_foldl_markDeclared {group : CifGroup} (h : group.Built) {contents : List CifContent}
    (hcontents : ∀ content ∈ contents, content ∈ group.content) {enables : Container}
    (hfits : enables.Fits) (hlayout : enables.layout = group.enables) :
    (contents.foldl markDeclared enables).Fits ∧
      (contents.foldl markDeclared enables).layout = group.enables := by
  induction contents generalizing enables with
  | nil => exact ⟨hfits, hlayout⟩
  | cons content contents ih =>
      obtain ⟨hfirst, hrest⟩ := List.forall_mem_cons.mp hcontents
      obtain ⟨hslot, _, _⟩ := h.enable_slot hfirst
      rw [← hlayout] at hslot
      apply ih hrest
      · rw [markDeclared]
        split
        · exact hfits
        · exact hfits.markEnable hslot rfl _
      · rw [markDeclared]
        split
        · exact hlayout
        · exact hlayout

theorem fits_new {group : CifGroup} (h : group.Built) : (CifContainer.new group).Fits := by
  have hfresh : (Container.new group.enables).Fits := ⟨h.word, h.word.holds_freshCells⟩
  obtain ⟨hword, hlayout⟩ := fits_foldl_markDeclared h (fun _ hcontent => hcontent) hfresh rfl
  refine ⟨h, hword, hlayout, ?_⟩
  rw [new, freshCells, List.forall₂_map_right_iff, List.forall₂_same]
  exact fun content hcontent => CifContent.holds_freshCell (h.inner hcontent)

theorem fits_of_unpack {group : CifGroup} (h : group.Built) {data : Bytes} {c : CifContainer}
    (hunpack : CifContainer.unpack group data = .ok c) : c.Fits := by
  obtain ⟨enables, hword, cells, hreads, rfl⟩ := unpack_eq_ok.mp hunpack
  have hreachable : enables.Reachable := .unpack h.word hword
  obtain ⟨_, _, _, rfl⟩ := h.word.sound.unpack_eq_ok.mp hword
  exact ⟨h, hreachable.fits, rfl, hreads.holds fun _ hcontent => h.inner hcontent⟩

/-! ## Operations -/

variable {c changed : CifContainer}

theorem Fits.inner (h : c.Fits) {content : CifContent} (hcontent : content ∈ c.group.content) :
    content.Built := h.built.inner hcontent

theorem Fits.mark (h : c.Fits) {content : CifContent} (hcontent : content ∈ c.group.content)
    (present : Bool) : (c.mark content present).Fits := by
  obtain ⟨hslot, _, _⟩ := h.built.enable_slot hcontent
  rw [← h.layout] at hslot
  exact ⟨h.built, h.word.markEnable hslot rfl present, h.layout, h.holds⟩

theorem Fits.put (h : c.Fits) {index : Nat} {cell : Cell}
    (hcell : ∀ content, c.group.content[index]? = some content → content.slot.Holds cell) :
    (c.put index cell).Fits := by
  refine ⟨h.built, h.word, h.layout, ?_⟩
  rw [CifContainer.put, List.set_eq_modify]
  exact forall₂_modify h.holds fun content _ hcontent _ => hcell content hcontent

theorem Fits.inWord (h : c.Fits) {ε : Type} {change : Container → Except ε Container}
    (hkeeps : ∀ enables, change c.enables = .ok enables → c.enables.Keeps enables)
    (hchange : c.inWord change = .ok changed) : changed.Fits := by
  obtain ⟨enables, henables, rfl⟩ := Fallible.map_eq_ok.mp hchange
  obtain ⟨hlayout, hfits⟩ := hkeeps enables henables
  exact ⟨h.built, hfits, hlayout.trans h.layout, h.holds⟩

theorem content?_eq_some {name : String} {index : Nat} {content : CifContent}
    (h : c.content? name = some (index, content)) : c.group.content[index]? = some content := by
  obtain ⟨found, _, hfound⟩ := Option.bind_eq_some_iff.mp h
  obtain ⟨other, hother, hresult⟩ := Option.bind_eq_some_iff.mp hfound
  cases hresult
  exact hother

theorem Fits.assign (h : c.Fits) {name : String} {value : Value} (hvalue : value.Fits)
    (hassign : c.assign name value = .ok changed) : changed.Fits := by
  rw [CifContainer.assign] at hassign
  split at hassign
  · refine h.inWord ?_ hassign
    intro enables henables
    obtain ⟨index, _, hat⟩ := Fallible.bind_eq_ok.mp henables
    refine h.word.assignAt ?_ hat
    rintro given hgiven
    cases hgiven
    exact hvalue
  · next index content hcontent =>
      have hat := content?_eq_some hcontent
      obtain ⟨cell, hcell, rfl⟩ := Fallible.map_eq_ok.mp hassign
      have hput : (c.put index cell).Fits := by
        apply h.put
        intro other hother
        cases hat.symm.trans hother
        have hitem : content.slot.item = .field content.field := rfl
        exact Slot.holds_of_accept hitem hvalue hcell
      exact hput.mark (List.mem_of_getElem? hat) true

theorem Fits.clear (h : c.Fits) {name : String} (hclear : c.clear name = .ok changed) :
    changed.Fits := by
  rw [CifContainer.clear] at hclear
  split at hclear
  · refine h.inWord ?_ hclear
    intro enables henables
    obtain ⟨index, _, hat⟩ := Fallible.bind_eq_ok.mp henables
    refine h.word.assignAt ?_ hat
    intro given hgiven
    cases hgiven
  · next index content hcontent =>
      cases hclear
      exact h.mark (List.mem_of_getElem? (content?_eq_some hcontent)) false

theorem Fits.changeMode (h : c.Fits) {name : String} {requested : Mode}
    (hchange : c.changeMode name requested = .ok changed) : changed.Fits := by
  rw [CifContainer.changeMode] at hchange
  split at hchange
  · exact h.inWord (fun _ => h.word.changeMode) hchange
  · next index content hcontent =>
      obtain ⟨next, _, rfl⟩ := Fallible.map_eq_ok.mp hchange
      have hmodified : ({ c with cells := c.cells.modify index (Cell.withMode next) } :
          CifContainer).Fits := by
        exact ⟨h.built, h.word, h.layout,
          forall₂_modify h.holds fun _ _ _ hholds => hholds.withMode next⟩
      simp only
      split
      · exact hmodified
      · exact hmodified.mark (List.mem_of_getElem? (content?_eq_some hcontent)) _

/-- Entering a payload structure keeps the container, and gives what fits the field it came from. -/
theorem Fits.enter (h : c.Fits) {name : String} {index : Nat} {inner : Container}
    (henter : c.enter name = .ok (changed, index, inner)) :
    changed.Fits ∧ changed.group = c.group ∧ inner.Fits ∧
      ∃ content, c.group.content[index]? = some content ∧ content.type = .record inner.layout := by
  rw [CifContainer.enter] at henter
  split at henter
  · cases henter
  · split at henter
    · cases henter
    · next content cell hentry =>
        obtain ⟨found, hcontent, hrest⟩ := Option.bind_eq_some_iff.mp hentry
        obtain ⟨stored, hcell, hpair⟩ := Option.bind_eq_some_iff.mp hrest
        cases hpair
        have hmem := List.mem_of_getElem? hcontent
        split at henter
        · next nested hvalue =>
            cases henter
            have hholds := forall₂_at h.holds hcontent hcell
            obtain ⟨field, hitem, htype, hcells⟩ := hholds.of_valueOf_record hvalue
            cases hitem
            exact ⟨h.mark hmem true, rfl, ⟨h.inner hmem _ htype, hcells⟩, _, hcontent, htype⟩
        · cases henter

end CifContainer

/-- The container that an operation stores. -/
def CifOperation.operand? : CifOperation → Option Container
  | .assign _ (.record operand) => some operand
  | .within _ operation => operation.operand?
  | _ => none

namespace CifOperation

theorem fits_settle {ε : Type} {c : CifContainer} (h : c.Fits) (refuse : ε → OperationError)
    {outcome : Except ε CifContainer} (hok : ∀ changed, outcome = .ok changed → changed.Fits) :
    (settle c refuse outcome).1.Fits := by
  cases outcome with
  | error cause => exact h
  | ok changed => exact hok changed rfl

/-- One operation keeps a container that fits, whether it succeeds or is refused. -/
theorem fits_run (operation : CifOperation) {c : CifContainer} (h : c.Fits)
    (hoperand : ∀ operand, operation.operand? = some operand → operand.Fits) :
    (operation.run c).1.Fits := by
  cases operation with
  | assign name value =>
      apply fits_settle h
      intro changed hchanged
      refine h.assign ?_ hchanged
      cases value with
      | scalar value => trivial
      | record operand => exact hoperand operand rfl
  | clear name => exact fits_settle h _ fun _ => h.clear
  | changeMode name requested => exact fits_settle h _ fun _ => h.changeMode
  | touch name =>
      apply fits_settle h
      intro changed hchanged
      obtain ⟨⟨marked, index, inner⟩, henter, rfl⟩ := Fallible.map_eq_ok.mp hchanged
      exact (h.enter henter).1
  | within name operation =>
      rw [run, CifContainer.within]
      cases henter : c.enter name with
      | error cause => exact h
      | ok entered =>
          obtain ⟨marked, index, inner⟩ := entered
          obtain ⟨hmarked, hgroup, hinner, content, hcontent, htype⟩ := h.enter henter
          -- The inner run keeps the inner layout, so its cells go back where they came from.
          obtain ⟨hsame, hchanged⟩ := operation.keeps_run hinner hoperand
          apply hmarked.put
          intro other hother
          rw [hgroup, hcontent] at hother
          cases hother
          refine .record rfl htype ?_
          rw [← hsame]
          exact hchanged.holds

end CifOperation

namespace CifContainer

/-- The containers of built groups that a program can come by: new ones, decoded ones, and what
operations make of them with reachable containers as operands. -/
inductive Reachable : CifContainer → Prop where
  | new {group : CifGroup} : group.Built → Reachable (.new group)
  | unpack {group : CifGroup} {data : Bytes} {c : CifContainer} :
      group.Built → CifContainer.unpack group data = .ok c → Reachable c
  | run {c : CifContainer} {operation : CifOperation} :
      Reachable c → (∀ operand, operation.operand? = some operand → operand.Reachable) →
      Reachable (operation.run c).1

/-- Every reachable container fits its group, whatever its history. -/
theorem Reachable.fits {c : CifContainer} (h : c.Reachable) : c.Fits := by
  induction h with
  | new hbuilt => exact fits_new hbuilt
  | unpack hbuilt hunpack => exact fits_of_unpack hbuilt hunpack
  | run _ hoperand ih =>
      exact CifOperation.fits_run _ ih fun operand h => (hoperand operand h).fits

end CifContainer

end RadioPacket
