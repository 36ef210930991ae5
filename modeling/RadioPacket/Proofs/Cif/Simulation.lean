import RadioPacket.Proofs.Cif.Flatten
import RadioPacket.Proofs.Container.Footprint

/-!
# Groups behave like flat structures

Gates, modes and presence are dealt with twice: by containers of structures, and by containers of
groups, which keep the indicator word and the payload apart.  Both come to the same.  The cells of a
group, the word first and the payload behind it, are the cells of a container of the flat structure,
and each call by name acts alike on the two, so no sequence of calls can tell them apart.
-/

namespace RadioPacket

/-! ## Calls by name -/

namespace CifOperation

/-- The name of the item that an operation addresses. -/
def name : CifOperation → String
  | .assign name _ => name
  | .clear name => name
  | .changeMode name _ => name
  | .touch name => name
  | .within name _ => name

/-- The operation goes into a nested structure. -/
def enters : CifOperation → Bool
  | .touch _ => true
  | .within _ _ => true
  | _ => false

/-- The same operation on a container of a structure. -/
def toOperation : CifOperation → Operation
  | .assign name value => .assign name value
  | .clear name => .clear name
  | .changeMode name requested => .changeMode name requested
  | .touch name => .touch name
  | .within name operation => .within name operation

theorem target?_toOperation (operation : CifOperation) (layout : Layout) :
    operation.toOperation.target? layout = layout.index? operation.name := by
  cases operation with
  | assign _ _ => rfl
  | clear _ => rfl
  | changeMode _ _ => rfl
  | touch _ => rfl
  | within _ _ => rfl

end CifOperation

/-- What a call answers. -/
inductive Answer where
  | value (result : Except ValueError (Option Value))
  | mode (result : Except ModeError Mode)
  | done (result : Except OperationError Unit)

/-- A call by name. -/
inductive CifCall where
  | read (name : String)
  | mode (name : String)
  | operate (operation : CifOperation)
  /-- Enters a nested structure, which marks it present, and asks something about its values. -/
  | inspect (name : String) (question : Container → Answer)

def CifContainer.call (c : CifContainer) : CifCall → CifContainer × Answer
  | .read name => (c, .value (c.read name))
  | .mode name => (c, .mode (c.mode name))
  | .operate operation => ((operation.run c).1, .done (operation.run c).2)
  | .inspect name question =>
      match c.enter name with
      | .error error => (c, .done (.error (.value error)))
      | .ok (marked, _, inner) => (marked, question inner)

def Container.call (c : Container) : CifCall → Container × Answer
  | .read name => (c, .value (c.read name))
  | .mode name => (c, .mode (c.mode name))
  | .operate operation =>
      ((operation.toOperation.run c).1, .done (operation.toOperation.run c).2)
  | .inspect name question =>
      match c.enter name with
      | .error error => (c, .done (.error (.value error)))
      | .ok (marked, _, inner) => (marked, question inner)

/-- What a sequence of calls leaves behind, and its answers in order. -/
def session {σ : Type} (call : σ → CifCall → σ × Answer) (state : σ) :
    List CifCall → σ × List Answer
  | [] => (state, [])
  | next :: rest =>
      let (after, answer) := call state next
      let (last, answers) := session call after rest
      (last, answer :: answers)

/-- The call names nothing that only the flat structure has, and goes into payload fields only. -/
def CifCall.Admitted (group : CifGroup) (rename : String → String) : CifCall → Prop
  | .read name => ∀ content ∈ group.content, name ≠ rename content.name
  | .mode name => ∀ content ∈ group.content, name ≠ rename content.name
  | .operate operation =>
      (∀ content ∈ group.content, operation.name ≠ rename content.name) ∧
        (operation.enters = true → ∃ content ∈ group.content, content.name = operation.name)
  | .inspect name _ => ∃ content ∈ group.content, content.name = name

/-! ## Operations on payload fields -/

namespace CifContainer

variable {c : CifContainer} {index : Nat} {content : CifContent} {cell : Cell}

theorem modeAt_eq (hcell : c.cells[index]? = some cell) :
    c.modeAt index = cell.mode?.getD .disabled := by rw [modeAt, hcell, Option.bind_some]

theorem put_self (hcell : c.cells[index]? = some cell) : c.put index cell = c := by
  obtain ⟨hlt, rfl⟩ := List.getElem?_eq_some_iff.mp hcell
  rw [put, List.set_getElem_self hlt]

theorem content?_eq {name : String} (hindex : c.index? name = some index)
    (hcontent : c.group.content[index]? = some content) :
    c.content? name = some (index, content) := by
  rw [content?, hindex]
  change (c.group.content[index]?.bind fun found => some (index, found)) = _
  rw [hcontent, Option.bind_some]

theorem content?_eq_none {name : String} (hindex : c.index? name = none) :
    c.content? name = none := by
  rw [content?, hindex]
  rfl

theorem enter_eq {name : String} (hindex : c.index? name = some index)
    (hcontent : c.group.content[index]? = some content) (hcell : c.cells[index]? = some cell) :
    c.enter name =
      match content.type.valueOf cell with
      | .record inner => .ok (c.mark content true, index, inner)
      | .scalar value => .error (.kind "structure" value.kind) := by
  rw [enter, hindex]
  simp only [entry?_eq hcontent hcell]
  rcases content.type.valueOf cell with value | inner
  · rfl
  · rfl

end CifContainer

namespace Effect

variable {effect : Effect} {c : CifContainer} {index : Nat} {content : CifContent} {cell : Cell}

/-- The group's container after an effect on the payload field at an index. -/
def applyContent (effect : Effect) (c : CifContainer) (index : Nat) (content : CifContent) :
    CifContainer :=
  match effect.presence with
  | none => c.put index effect.cell
  | some present => (c.put index effect.cell).mark content present

theorem applyContent_refusal {error : OperationError} (hcell : c.cells[index]? = some cell) :
    (refusal cell error).applyContent c index content = c := CifContainer.put_self hcell

theorem applyContent_mark {present : Bool} {answer : Except OperationError Unit}
    (hcell : c.cells[index]? = some cell) :
    (Effect.mk cell (some present) answer).applyContent c index content =
      c.mark content present := by
  simp only [applyContent, CifContainer.put_self hcell]

/-- An effect on a payload field is the same effect on the flat structure. -/
theorem flatten_applyContent {flat : Layout} (henable : content.enable < c.enables.cells.length) :
    (effect.applyContent c index content).flatten flat =
      effect.apply (c.flatten flat) (c.enables.cells.length + index) (some content.enable) := by
  unfold applyContent apply
  rcases effect.presence with _ | present
  · exact CifContainer.flatten_put flat effect.cell
  · have hput : content.enable < (c.put index effect.cell).enables.cells.length := henable
    simp only [CifContainer.flatten_mark flat hput, CifContainer.flatten_put]

/-- An effect on an item of the word that is not linked is the same effect on the flat structure. -/
theorem flatten_applyWord {flat : Layout} (hindex : index < c.enables.cells.length) :
    ({ c with enables := effect.apply c.enables index none } : CifContainer).flatten flat =
      effect.apply (c.flatten flat) index none := by
  have hcells : (effect.apply c.enables index none).cells =
      c.enables.cells.set index effect.cell := by
    unfold apply
    split
    · rfl
    · rfl
  have hflat : effect.apply (c.flatten flat) index none =
      (c.flatten flat).put index effect.cell := by
    unfold apply
    split
    · rfl
    · rfl
  rw [hflat, CifContainer.flatten, hcells, CifContainer.flatten, Container.put,
    List.set_append_left _ _ hindex]

end Effect

namespace CifOperation

variable {c : CifContainer} {index : Nat} {content : CifContent} {cell : Cell}

theorem settle_refused {ε : Type} {refuse : ε → OperationError} {error : ε}
    (hcell : c.cells[index]? = some cell) :
    settle c refuse (.error error) =
      ((Effect.refusal cell (refuse error)).applyContent c index content,
        .error (refuse error)) := by
  rw [Effect.applyContent_refusal hcell]
  rfl

/-- What an operation on a payload field does and answers is the effect that it has on a gated field
of a structure. -/
theorem run_content (operation : CifOperation) (hindex : c.index? operation.name = some index)
    (hcontent : c.group.content[index]? = some content) (hcell : c.cells[index]? = some cell)
    {slot : Slot} {gate : String} (hitem : slot.item = .field (content.gated gate))
    (hlink : slot.link ≠ none) :
    operation.run c =
      ((operation.toOperation.effect slot cell).applyContent c index content,
        (operation.toOperation.effect slot cell).answer) := by
  have hvalue : slot.valueOf cell = content.type.valueOf cell := by
    rw [Slot.valueOf, hitem]
    rfl
  have hfound : c.content? operation.name = some (index, content) :=
    CifContainer.content?_eq hindex hcontent
  have hentered := CifContainer.enter_eq hindex hcontent hcell
  cases operation with
  | assign name value =>
      change c.content? name = _ at hfound
      rw [run, CifContainer.assign, hfound]
      simp only [toOperation, Operation.effect, Slot.assign, hitem, CifContainer.modeAt_eq hcell]
      change settle c .value (Except.map _ (content.type.accept _ value)) = _
      simp only [CifContent.gated]
      rcases content.type.accept (cell.mode?.getD .disabled) value with error | next
      · exact settle_refused hcell
      · rfl
  | clear name =>
      change c.content? name = _ at hfound
      rw [run, CifContainer.clear, hfound]
      simp only [toOperation, Operation.effect, Slot.assign, hitem, if_neg hlink]
      exact congrArg (·, Except.ok ()) (Effect.applyContent_mark hcell).symm
  | changeMode name requested =>
      change c.content? name = _ at hfound
      rw [run, CifContainer.changeMode, hfound]
      simp only [toOperation, Operation.effect, hitem, Item.field?, CifContainer.modeAt_eq hcell]
      rcases (cell.mode?.getD .disabled).request requested name with error | next
      · exact settle_refused hcell
      · simp only [Except.map, Cell.modify_eq_set hcell, Effect.applyContent]
        rcases next.presence? with _ | present
        · rfl
        · rfl
  | touch name =>
      change c.enter name = _ at hentered
      rw [run, hentered]
      simp only [toOperation, Operation.effect, hvalue]
      rcases content.type.valueOf cell with value | inner
      · exact settle_refused hcell
      · simp only [Effect.applyContent_mark hcell]
        rfl
  | within name operation =>
      change c.enter name = _ at hentered
      rw [run, CifContainer.within, hentered]
      simp only [toOperation, Operation.effect, Slot.change, hvalue]
      rcases content.type.valueOf cell with value | inner
      · exact congrArg (·, _) (Effect.applyContent_refusal hcell).symm
      · have hmode : (c.mark content true).modeAt index = cell.mode?.getD .disabled :=
          CifContainer.modeAt_eq hcell
        simp only [hmode]
        rfl

theorem run_word (operation : CifOperation) (hindex : c.index? operation.name = none)
    (houter : operation.enters = false) :
    operation.run c =
      ({ c with enables := (operation.toOperation.run c.enables).1 },
        (operation.toOperation.run c.enables).2) := by
  have hsettle {ε : Type} (refuse : ε → OperationError) (change : Container → Except ε Container) :
      settle c refuse (c.inWord change) =
        ({ c with enables := (Operation.settle c.enables refuse (change c.enables)).1 },
          (Operation.settle c.enables refuse (change c.enables)).2) := by
    unfold CifContainer.inWord
    rcases change c.enables with error | enables
    · rfl
    · rfl
  have hother : c.content? operation.name = none := CifContainer.content?_eq_none hindex
  cases operation with
  | assign name value =>
      change c.content? name = none at hother
      rw [run, CifContainer.assign, hother]
      exact hsettle .value fun enables => enables.assign name value
  | clear name =>
      change c.content? name = none at hother
      rw [run, CifContainer.clear, hother]
      exact hsettle .value fun enables => enables.clear name
  | changeMode name requested =>
      change c.content? name = none at hother
      rw [run, CifContainer.changeMode, hother]
      exact hsettle .mode fun enables => enables.changeMode name requested
  | touch _ => cases houter
  | within _ _ => cases houter

end CifOperation

/-! ## One call -/

namespace CifContainer.Shaped

variable {c : CifContainer} {index : Nat} {content : CifContent}

theorem applyContent (h : c.Shaped) (effect : Effect) :
    (effect.applyContent c index content).group = c.group ∧
      (effect.applyContent c index content).Shaped := by
  unfold Effect.applyContent
  split
  · exact ⟨rfl, h.put effect.cell⟩
  · exact ⟨rfl, (h.put effect.cell).mark _⟩

theorem applyWord (h : c.Shaped) (effect : Effect) (link : Option Nat) :
    ({ c with enables := effect.apply c.enables index link } : CifContainer).Shaped :=
  ⟨Effect.layout_apply.trans h.layout, Effect.length_apply.trans h.word, h.payload⟩

end CifContainer.Shaped

/-- An outcome on the flat structure mirrors an outcome on a container of the group: the cells are
those of the group, and the answers are the same. -/
structure CifContainer.Mirrors {α : Type} (c : CifContainer) (rename : String → String)
    (flat : Container × α) (outcome : CifContainer × α) : Prop where
  flat : flat = (outcome.1.flatten (c.group.flatLayout rename), outcome.2)
  group : outcome.1.group = c.group
  shaped : outcome.1.Shaped

namespace CifGroup.Flattens

variable {c : CifContainer} {rename : String → String} (h : c.group.Flattens rename) (hc : c.Shaped)

include h hc

/-- An operation on a payload field acts on the group as it acts on the flat structure. -/
theorem run_payload (operation : CifOperation) {content : CifContent}
    (hcontent : content ∈ c.group.content) (hname : content.name = operation.name) :
    c.Mirrors rename (operation.toOperation.run (c.flatten (c.group.flatLayout rename)))
      (operation.run c) := by
  obtain ⟨index, cell, slot, hat⟩ := h.payload_at hc hcontent
  have henable := h.enable_lt hc hcontent
  have hself : slot.link ≠ some (c.enables.cells.length + index) := by
    rw [hat.link]
    intro hsame
    have hequal := Option.some.inj hsame
    omega
  have hlinked : slot.link ≠ none := by
    rw [hat.link]
    nofun
  have htarget : operation.toOperation.target? (c.group.flatLayout rename) =
      some (c.enables.cells.length + index) := by
    rw [operation.target?_toOperation, ← hname, hat.target]
  rw [operation.run_content (hname ▸ hat.found) hat.declared hat.holds hat.item hlinked,
    operation.toOperation.run_eq htarget hat.placed hself hat.stored, hat.link,
    ← Effect.flatten_applyContent henable]
  obtain ⟨hgroup, hshaped⟩ := hc.applyContent (operation.toOperation.effect slot cell)
  exact ⟨rfl, hgroup, hshaped⟩

theorem run_flag (operation : CifOperation)
    (hother : ∀ content ∈ c.group.content, operation.name ≠ content.name)
    (hnew : ∀ content ∈ c.group.content, operation.name ≠ rename content.name)
    (houter : operation.enters = false) :
    c.Mirrors rename (operation.toOperation.run (c.flatten (c.group.flatLayout rename)))
      (operation.run c) := by
  have hsame := h.index?_word hother hnew
  rw [operation.run_word (CifContainer.index?_eq_none hother) houter]
  cases hindex : c.group.enables.index? operation.name with
  | none =>
      obtain ⟨error, hrefused⟩ := operation.toOperation.exists_refusal
      have hmissing (layout : Layout) (hnone : layout.index? operation.name = none) :
          ∀ index, operation.toOperation.target? layout = some index →
            layout.slots[index]? = none := by
        intro index htarget
        rw [operation.target?_toOperation, hnone] at htarget
        cases htarget
      have hword := hrefused c.enables (hmissing _ (hc.layout ▸ hindex))
      have hflat := hrefused (c.flatten (c.group.flatLayout rename))
        (hmissing _ (hsame.trans hindex))
      rw [hword, hflat]
      exact ⟨rfl, rfl, hc⟩
  | some index =>
      obtain ⟨cell, slot, copy, hat⟩ := h.word_at hc hother hindex
      have htarget : operation.toOperation.target? c.enables.layout = some index := by
        rw [operation.target?_toOperation, hc.layout, hindex]
      have hflat : operation.toOperation.target? (c.group.flatLayout rename) = some index := by
        rw [operation.target?_toOperation, hsame, hindex]
      have hlt := (List.getElem?_eq_some_iff.mp hat.holds).1
      rw [operation.toOperation.run_eq htarget hat.placed (by rw [hat.link]; nofun) hat.holds,
        operation.toOperation.run_eq hflat hat.copied (by rw [hat.copy_link]; nofun) hat.stored,
        Operation.effect_congr hat.item (hat.copy_link.trans hat.link.symm), hat.copy_link,
        hat.link, ← Effect.flatten_applyWord hlt]
      exact ⟨rfl, rfl, hc.applyWord _ _⟩

/-- An operation acts on the group as it acts on the flat structure. -/
theorem run_flatten (operation : CifOperation)
    (hnew : ∀ content ∈ c.group.content, operation.name ≠ rename content.name)
    (hinner : operation.enters = true → ∃ content ∈ c.group.content,
      content.name = operation.name) :
    c.Mirrors rename (operation.toOperation.run (c.flatten (c.group.flatLayout rename)))
      (operation.run c) := by
  rcases c.group.names_or operation.name with ⟨content, hcontent, hname⟩ | hother
  · exact h.run_payload hc operation hcontent hname
  · refine h.run_flag hc operation hother hnew (Bool.eq_false_iff.mpr fun henters => ?_)
    obtain ⟨content, hcontent, hname⟩ := hinner henters
    exact hother content hcontent hname.symm

theorem read_flatten {name : String}
    (hnew : ∀ content ∈ c.group.content, name ≠ rename content.name) :
    (c.flatten (c.group.flatLayout rename)).read name = c.read name := by
  rcases c.group.names_or name with ⟨content, hcontent, rfl⟩ | hother
  · obtain ⟨index, cell, slot, hat⟩ := h.payload_at hc hcontent
    have hopen : Cell.isOpen (c.flatten (c.group.flatLayout rename)).cells slot.link =
        c.announces content := by
      rw [hat.link]
      exact h.isOpen_flatten hc hcontent _
    rw [Container.read, Container.index_eq_ok hat.target, CifContainer.read, hat.found]
    change Except.ok _ = Except.ok _
    rw [Container.get?_field hat.placed hat.stored hat.item, hopen,
      CifContainer.get?_eq hat.declared hat.holds]
    rfl
  · have hsame := h.index?_word hother hnew
    rw [CifContainer.read, CifContainer.index?_eq_none hother]
    cases hindex : c.group.enables.index? name with
    | none =>
        simp only [Container.read, Container.index, CifContainer.flatten, hsame, hindex, hc.layout]
        rfl
    | some index =>
        obtain ⟨cell, slot, copy, hat⟩ := h.word_at hc hother hindex
        have hvalue : copy.valueOf cell = slot.valueOf cell := by
          rw [Slot.valueOf, Slot.valueOf, hat.item]
        have hword : c.enables.layout.index? name = some index := hc.layout ▸ hindex
        rw [Container.read, Container.read, Container.index_eq_ok hword,
          Container.index_eq_ok (hsame.trans hindex)]
        change Except.ok _ = Except.ok _
        rw [Container.get?_unlinked hat.placed hat.holds hat.link,
          Container.get?_unlinked hat.copied hat.stored hat.copy_link, hvalue]

theorem mode_flatten {name : String}
    (hnew : ∀ content ∈ c.group.content, name ≠ rename content.name) :
    (c.flatten (c.group.flatLayout rename)).mode name = c.mode name := by
  rcases c.group.names_or name with ⟨content, hcontent, rfl⟩ | hother
  · obtain ⟨index, cell, slot, hat⟩ := h.payload_at hc hcontent
    have hmodeIndex : (c.flatten (c.group.flatLayout rename)).modeIndex content.name =
        .ok (c.enables.cells.length + index) := by
      rw [Container.modeIndex]
      simp only [CifContainer.flatten, hat.target, Layout.slot?, hat.placed, Option.bind_some,
        hat.item, Item.field?]
    rw [Container.mode, hmodeIndex, CifContainer.mode, hat.found]
    change Except.ok _ = Except.ok _
    rw [Container.modeAt_eq hat.stored, CifContainer.modeAt_eq hat.holds]
  · have hsame := h.index?_word hother hnew
    rw [CifContainer.mode, CifContainer.index?_eq_none hother]
    cases hindex : c.group.enables.index? name with
    | none =>
        simp only [Container.mode, Container.modeIndex, CifContainer.flatten, hsame, hindex,
          hc.layout]
        rfl
    | some index =>
        obtain ⟨cell, slot, copy, hat⟩ := h.word_at hc hother hindex
        have hmodeAt : (c.flatten (c.group.flatLayout rename)).modeAt index =
            c.enables.modeAt index := by
          rw [Container.modeAt_eq hat.stored, Container.modeAt_eq hat.holds]
        have hslot : c.group.enables.slots[index]? = some slot := hc.layout ▸ hat.placed
        simp only [Container.mode, Container.modeIndex, CifContainer.flatten, hsame, hindex,
          hc.layout, Layout.slot?, hslot, hat.copied, Option.bind_some, hat.item]
        rcases slot.item.field? with _ | field
        · rfl
        · exact congrArg Except.ok hmodeAt

theorem enter_flatten {content : CifContent} (hcontent : content ∈ c.group.content) :
    (∃ error, c.enter content.name = .error error ∧
        (c.flatten (c.group.flatLayout rename)).enter content.name = .error error) ∨
      ∃ (inner : Container) (index place : Nat),
        c.enter content.name = .ok (c.mark content true, index, inner) ∧
          (c.flatten (c.group.flatLayout rename)).enter content.name =
            .ok ((c.mark content true).flatten (c.group.flatLayout rename), place, inner) := by
  obtain ⟨index, cell, slot, hat⟩ := h.payload_at hc hcontent
  have hvalue : slot.valueOf cell = content.type.valueOf cell := by
    rw [Slot.valueOf, hat.item]
    rfl
  rw [Container.enter_eq hat.target hat.placed hat.stored, hvalue, hat.link,
    CifContainer.enter_eq hat.found hat.declared hat.holds]
  rcases content.type.valueOf cell with value | inner
  · exact .inl ⟨_, rfl, rfl⟩
  · refine .inr ⟨inner, index, c.enables.cells.length + index, rfl, ?_⟩
    rw [CifContainer.flatten_mark _ (h.enable_lt hc hcontent)]

theorem call_flatten {call : CifCall} (hcall : call.Admitted c.group rename) :
    c.Mirrors rename ((c.flatten (c.group.flatLayout rename)).call call) (c.call call) := by
  cases call with
  | read name => exact ⟨congrArg (_, Answer.value ·) (h.read_flatten hc hcall), rfl, hc⟩
  | mode name => exact ⟨congrArg (_, Answer.mode ·) (h.mode_flatten hc hcall), rfl, hc⟩
  | operate operation =>
      have hrun := h.run_flatten hc operation hcall.1 hcall.2
      refine ⟨?_, hrun.group, hrun.shaped⟩
      rw [Container.call, hrun.flat]
      rfl
  | inspect name question =>
      obtain ⟨content, hcontent, rfl⟩ := hcall
      simp only [Container.call, CifContainer.call]
      rcases h.enter_flatten hc hcontent with
        ⟨error, hcif, hflat⟩ | ⟨inner, index, place, hcif, hflat⟩
      · rw [hcif, hflat]
        exact ⟨rfl, rfl, hc⟩
      · rw [hcif, hflat]
        exact ⟨rfl, rfl, hc.mark true⟩

end CifGroup.Flattens

/-! ## Sequences of calls -/

/-- The container that a call stores. -/
def CifCall.operand? : CifCall → Option Container
  | .operate operation => operation.operand?
  | _ => none

namespace CifContainer.Fits

variable {c : CifContainer}

theorem call (h : c.Fits) {call : CifCall}
    (hoperands : ∀ operand, call.operand? = some operand → operand.Reachable) :
    (c.call call).1.Fits := by
  cases call with
  | read _ => exact h
  | mode _ => exact h
  | operate operation =>
      exact operation.fits_run h fun operand hoperand => (hoperands operand hoperand).fits
  | inspect name question =>
      rw [CifContainer.call]
      cases henter : c.enter name with
      | error _ => exact h
      | ok _ => exact (h.enter henter).1

theorem session (h : c.Fits) {calls : List CifCall}
    (hoperands : ∀ call ∈ calls, ∀ operand, call.operand? = some operand → operand.Reachable) :
    (session CifContainer.call c calls).1.Fits := by
  induction calls generalizing c with
  | nil => exact h
  | cons next rest ih =>
      obtain ⟨hfirst, hrest⟩ := List.forall_mem_cons.mp hoperands
      exact ih (h.call hfirst) hrest

end CifContainer.Fits

/-- A sequence of calls leaves the group and the flat structure alike, and has the same answers. -/
theorem CifGroup.Flattens.session_flatten {c : CifContainer} {rename : String → String}
    (h : c.group.Flattens rename) (hc : c.Shaped) {calls : List CifCall}
    (hcalls : ∀ call ∈ calls, call.Admitted c.group rename) :
    session Container.call (c.flatten (c.group.flatLayout rename)) calls =
        ((session CifContainer.call c calls).1.flatten (c.group.flatLayout rename),
          (session CifContainer.call c calls).2) ∧
      (session CifContainer.call c calls).1.group = c.group := by
  induction calls generalizing c with
  | nil => exact ⟨rfl, rfl⟩
  | cons call calls ih =>
      obtain ⟨hfirst, hrest⟩ := List.forall_mem_cons.mp hcalls
      have hcall := h.call_flatten hc hfirst
      rw [← hcall.group] at h hrest
      obtain ⟨hsession, hkept⟩ := ih h hcall.shaped hrest
      rw [hcall.group] at hsession
      refine ⟨?_, hkept.trans hcall.group⟩
      simp only [session, hcall.flat, hsession]

/-- A group behaves like its flat structure: that structure can be built, and each of any calls by
name has the same answer on both, from new containers on.  Whenever every payload field is present,
both are packed to the same bytes. -/
theorem CifGroup.Flattens.simulates {group : CifGroup} {rename : String → String}
    (h : group.Flattens rename) :
    ∃ flat, (group.flat rename).build = .ok flat ∧ ∀ calls : List CifCall,
      (∀ call ∈ calls, call.Admitted group rename) →
        (session Container.call (Container.new flat) calls).2 =
            (session CifContainer.call (CifContainer.new group) calls).2 ∧
          ((∀ call ∈ calls, ∀ operand, call.operand? = some operand → operand.Reachable) →
            (∀ content ∈ group.content,
              (session CifContainer.call (CifContainer.new group) calls).1.announces content) →
            (session Container.call (Container.new flat) calls).1.pack =
              (session CifContainer.call (CifContainer.new group) calls).1.pack) := by
  refine ⟨_, h.build, ?_⟩
  intro calls hcalls
  have hnew := CifContainer.fits_new h.built
  obtain ⟨hsession, hgroup⟩ :=
    CifGroup.Flattens.session_flatten (c := CifContainer.new group) h hnew.shaped hcalls
  have hstart : (CifContainer.new group).flatten
      ((CifContainer.new group).group.flatLayout rename) =
        Container.new (group.flatLayout rename) := h.flatten_new
  rw [hstart] at hsession
  rw [hsession]
  refine ⟨rfl, ?_⟩
  intro hoperands hall
  have hfits := hnew.session hoperands
  have hflattens : (session CifContainer.call (CifContainer.new group) calls).1.group.Flattens
      rename := hgroup ▸ h
  have hpack := hflattens.pack_flatten hfits (hgroup ▸ hall)
  rw [hgroup] at hpack
  exact hpack

namespace CifBlueprint.Sample

/-- The names of the enables of `tuned` in its flat structure. -/
def gateName (name : String) : String := if name = "pair" then "hasPair" else "hasGain"

theorem flattens_tuned : tuned.Flattens gateName where
  built := built_tuned
  wide := by decide +kernel
  short := by decide +kernel
  distinct := by decide +kernel
  unused := by decide +kernel

/-- Calls on `tuned`, one of them with a name that it does not have. -/
def exchange : List CifCall :=
  [.mode "gain", .operate (.within "pair" (.assign "kind" (.scalar (.unsigned 5)))),
    .read "absent", .operate (.changeMode "gain" .required), .operate (.clear "changed")]

theorem admitted_exchange : ∀ call ∈ exchange, call.Admitted tuned gateName := by
  have hnew : ∀ name ∈ ["gain", "pair", "absent", "changed"], ∀ content ∈ tuned.content,
      name ≠ gateName content.name := by decide +kernel
  have hpair : ∃ content ∈ tuned.content, content.name = "pair" := by decide +kernel
  intro call hcall
  simp only [exchange, List.mem_cons, List.not_mem_nil, or_false] at hcall
  rcases hcall with rfl | rfl | rfl | rfl | rfl
  · exact hnew "gain" (by decide)
  · exact ⟨hnew "pair" (by decide), fun _ => hpair⟩
  · exact hnew "absent" (by decide)
  · exact ⟨hnew "gain" (by decide), nofun⟩
  · exact ⟨hnew "changed" (by decide), nofun⟩

/-- The flat structure of `tuned` answers the calls like the group, and then packs alike. -/
theorem simulates_exchange :
    tuned.Flattens gateName ∧ (∀ call ∈ exchange, call.Admitted tuned gateName) ∧
      ∃ flat, (tuned.flat gateName).build = .ok flat ∧
        (session Container.call (Container.new flat) exchange).2 =
          (session CifContainer.call (CifContainer.new tuned) exchange).2 ∧
        (session Container.call (Container.new flat) exchange).1.pack =
          #[32, 128, 0, 0, 160, 0, 0] := by
  obtain ⟨flat, hbuild, hsimulates⟩ := CifGroup.Flattens.simulates flattens_tuned
  obtain ⟨hanswers, hpack⟩ := hsimulates exchange admitted_exchange
  have hoperands : ∀ call ∈ exchange, ∀ operand, call.operand? = some operand →
      operand.Reachable := by
    intro call hcall operand hoperand
    simp only [exchange, List.mem_cons, List.not_mem_nil, or_false] at hcall
    rcases hcall with rfl | rfl | rfl | rfl | rfl
    all_goals cases hoperand
  have hpresent : ∀ content ∈ tuned.content,
      (session CifContainer.call (CifContainer.new tuned) exchange).1.announces content := by
    decide +kernel
  have hbytes : (session CifContainer.call (CifContainer.new tuned) exchange).1.pack =
      #[32, 128, 0, 0, 160, 0, 0] := by decide +kernel
  exact ⟨flattens_tuned, admitted_exchange, flat, hbuild, hanswers,
    (hpack hoperands hpresent).trans hbytes⟩

end CifBlueprint.Sample

end RadioPacket
