import RadioPacket.Container.InPlace
import RadioPacket.Proofs.Container.Footprint

/-!
# Work in place and its outcome

Carrying out an operation in place comes to the same as running it.  The two differ only in what
they could leave behind when they are refused: running an operation gives back the container that it
was given, while work in place leaves what it has written.  So the agreement of the two says that no
check stands behind a write that it would have to prevent.  Where a structure is entered, a check
does stand behind a write, and there it takes the links of a built layout to see that it cannot
fail.
-/

namespace RadioPacket

namespace InPlace

variable {σ ε α β : Type}

theorem bind_apply (work : InPlace σ ε α) (next : α → InPlace σ ε β) (state : σ) :
    (work >>= next) state =
      match work state with
      | .ok answer after => next answer after
      | .error error left => .error error left := by
  change EStateM.bind work next state = _
  rw [EStateM.bind]
  cases work state with
  | ok answer after => rfl
  | error error left => rfl

theorem get_bind (next : σ → InPlace σ ε α) (state : σ) :
    (get >>= next) state = next state state := rfl

theorem adaptExcept_apply {ε' : Type} (refuse : ε → ε') (work : InPlace σ ε α) (state : σ) :
    work.adaptExcept refuse state =
      match work state with
      | .ok answer after => .ok answer after
      | .error error left => .error (refuse error) left := by
  rw [EStateM.adaptExcept]
  cases work state with
  | ok answer after => rfl
  | error error left => rfl

theorem check_ok (value : α) (state : σ) :
    (check (.ok value) : InPlace σ ε α) state = .ok value state := rfl

/-- What work in place leaves behind that gives the state or refuses to change it. -/
def settled (state : σ) : Except ε σ → EStateM.Result ε σ Unit
  | .ok changed => .ok () changed
  | .error error => .error error state

/-- A state with an answer, as the result of work in place. -/
def outcome : σ × Except ε α → EStateM.Result ε σ α
  | (state, .ok answer) => .ok answer state
  | (state, .error error) => .error error state

end InPlace

namespace Container.Edit

open InPlace

variable {c : Container}

theorem index_eq (name : String) :
    index name c =
      match c.index name with
      | .ok index => .ok index c
      | .error error => .error error c := by
  change check (c.index name) c = _
  rcases c.index name with error | index
  · rfl
  · rfl

theorem mark_eq {ε : Type} (link : Option Nat) (present : Bool) :
    (mark link present : Edit ε Unit) c = .ok () (c.mark link present) := by
  cases link with
  | none => rfl
  | some enable => rfl

theorem assignAt_eq (index : Nat) (value : Option Value) :
    assignAt index value c = settled c (c.assignAt index value) := by
  unfold Container.assignAt
  rw [assignAt, get_bind]
  rcases hslot : c.layout.slot? index with _ | slot
  · rfl
  · simp only
    rcases hitem : slot.item with field | enable | run
    · simp only
      rcases heditable : field.editable with _ | _
      · rfl
      · simp only [Bool.not_true, Bool.false_eq_true, if_false]
        rcases value with _ | value
        · rcases hlink : slot.link with _ | enable
          · rfl
          · rfl
        · simp only
          rw [get_bind, bind_apply]
          rcases field.type.accept (c.modeAt index) value with error | cell
          · rfl
          · exact mark_eq slot.link true
    · simp only
      rw [bind_apply]
      rcases Enable.stateOf enable.bits value with error | present
      · rfl
      · rfl
    · rfl

theorem index_bind {name : String} {next : Nat → Edit ValueError Unit}
    {change : Nat → Except ValueError Container}
    (hnext : ∀ index, next index c = settled c (change index)) :
    (index name >>= next) c = settled c (c.index name >>= change) := by
  rw [bind_apply, index_eq]
  rcases c.index name with error | index
  · rfl
  · exact hnext index

theorem assign_eq (name : String) (value : Value) :
    assign name value c = settled c (c.assign name value) :=
  index_bind fun index => assignAt_eq index (some value)

theorem clear_eq (name : String) : clear name c = settled c (c.clear name) :=
  index_bind fun index => assignAt_eq index none

theorem assignSymbol_eq (name symbol : String) :
    assignSymbol name symbol c = settled c (c.assignSymbol name symbol) := by
  apply index_bind
  intro index
  rw [get_bind]
  rcases c.enumTable? index with _ | table
  · rfl
  · simp only
    rcases table.valueOf? symbol with _ | value
    · rfl
    · exact assignAt_eq index _

theorem changeMode_eq (name : String) (requested : Mode) :
    changeMode name requested c = settled c (c.changeMode name requested) := by
  rw [changeMode, Container.changeMode, get_bind, bind_apply]
  rcases c.modeIndex name with error | index
  · rfl
  · simp only [check_ok]
    rw [get_bind, bind_apply]
    simp only [bind, Except.bind]
    rcases (c.modeAt index).request requested name with error | next
    · rfl
    · simp only [check_ok]
      rcases next.presence? with _ | present
      · rfl
      · exact mark_eq _ present

end Container.Edit

/-! ## Entering a structure -/

namespace Container

variable {c : Container}

theorem Fits.nestedAt_mark (h : c.Fits) (index : Nat) (present : Bool) :
    (c.mark ((c.layout.slot? index).bind Slot.link) present).nestedAt index = c.nestedAt index := by
  rcases hslot : c.layout.slot? index with _ | slot
  · rfl
  · rw [Option.bind_some]
    rcases hlink : slot.link with _ | enable
    · rfl
    · have hne : enable ≠ index := by
        rintro rfl
        exact h.built.linked.matched.link_ne_self hslot hlink
      rw [Container.mark, Container.nestedAt, Container.nestedAt, Container.put,
        List.getElem?_set_ne hne]

/-- Entering in place finds the structure before and after it is marked. -/
theorem Fits.edit_enter (h : c.Fits) (name : String) :
    Edit.enter name c =
      match c.enter name with
      | .ok (marked, index, inner) => .ok (index, inner) marked
      | .error error => .error error c := by
  rw [Container.enter, Edit.enter, InPlace.bind_apply, Edit.index_eq]
  rcases c.index name with error | index
  · rfl
  · change (InPlace.check (c.nestedAt index) >>= _ : Edit ValueError _) c = _
    rw [InPlace.bind_apply]
    simp only [bind, Except.bind]
    rcases hnested : c.nestedAt index with error | inner
    · rfl
    · simp only [InPlace.check_ok]
      change (Edit.mark ((c.layout.slot? index).bind Slot.link) true >>= _ : Edit ValueError _) c = _
      rw [InPlace.bind_apply, Edit.mark_eq]
      change (InPlace.check ((c.mark _ true).nestedAt index) >>= _ : Edit ValueError _) _ = _
      rw [h.nestedAt_mark, hnested]
      rfl

end Container

namespace InPlace

theorem adaptExcept_settled {ε : Type} {c : Container} {work : Container.Edit ε Unit}
    {change : Except ε Container} (h : work c = settled c change) (refuse : ε → OperationError) :
    work.adaptExcept refuse c = outcome (Operation.settle c refuse change) := by
  rw [adaptExcept_apply, h]
  rcases change with error | changed
  · rfl
  · rfl

end InPlace

/-- Carrying out an operation in place comes to the same as running it. -/
theorem Operation.perform_eq (operation : Operation) {c : Container} (h : c.Fits) :
    operation.perform c = InPlace.outcome (operation.run c) := by
  induction operation generalizing c with
  | assignAt index value => exact InPlace.adaptExcept_settled (Container.Edit.assignAt_eq _ _) _
  | assign name value => exact InPlace.adaptExcept_settled (Container.Edit.assign_eq _ _) _
  | clear name => exact InPlace.adaptExcept_settled (Container.Edit.clear_eq _) _
  | assignSymbol name symbol =>
      exact InPlace.adaptExcept_settled (Container.Edit.assignSymbol_eq _ _) _
  | changeMode name requested =>
      exact InPlace.adaptExcept_settled (Container.Edit.changeMode_eq _ _) _
  | touch name =>
      apply InPlace.adaptExcept_settled
      rw [InPlace.bind_apply, h.edit_enter]
      rcases c.enter name with error | ⟨marked, index, inner⟩
      · rfl
      · rfl
  | within name operation ih =>
      rw [perform, Container.Edit.within, h.edit_enter, run, Container.within]
      rcases henter : c.enter name with error | ⟨marked, index, inner⟩
      · rfl
      · simp only [ih (h.enter henter).2.1]
        rcases hrun : operation.run inner with ⟨changed, error | answer⟩
        · rfl
        · rfl

theorem Operation.eq_of_settle_refused {ε : Type} {c : Container} {refuse : ε → OperationError}
    {change : Except ε Container} {error : OperationError}
    (h : (settle c refuse change).2 = .error error) : (settle c refuse change).1 = c := by
  rcases change with cause | changed
  · rfl
  · cases h

end RadioPacket
