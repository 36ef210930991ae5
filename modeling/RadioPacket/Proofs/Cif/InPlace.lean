import RadioPacket.Cif.InPlace
import RadioPacket.Proofs.Cif.RoundTrip
import RadioPacket.Proofs.Container.InPlace

/-!
# Work in place on groups, and refused operations

Groups have their own code for values, modes and presence, and for them too, carrying out an
operation in place comes to the same as running it.  With that, refused operations are dealt with
once for all containers.  A refused operation leaves everything as it was, down to what is hidden
behind enables, except that the structures which it had entered before are marked present, as
entering marks them.
-/

namespace RadioPacket

namespace CifContainer

open InPlace

variable {c : CifContainer}

namespace Edit

theorem inWord_eq {ε : Type} {work : Container.Edit ε Unit}
    {change : Container → Except ε Container}
    (h : work c.enables = settled c.enables (change c.enables)) :
    inWord work c = settled c (c.inWord change) := by
  rw [inWord, CifContainer.inWord, h]
  rcases change c.enables with error | enables
  · rfl
  · rfl

theorem assign_eq (name : String) (value : Value) :
    assign name value c = settled c (c.assign name value) := by
  rw [assign, CifContainer.assign, get_bind]
  rcases c.content? name with _ | ⟨index, content⟩
  · exact inWord_eq (Container.Edit.assign_eq name value)
  · simp only
    rw [get_bind, bind_apply]
    rcases content.type.accept (c.modeAt index) value with error | cell
    · rfl
    · rfl

theorem clear_eq (name : String) : clear name c = settled c (c.clear name) := by
  rw [clear, CifContainer.clear, get_bind]
  rcases c.content? name with _ | ⟨index, content⟩
  · exact inWord_eq (Container.Edit.clear_eq name)
  · rfl

theorem changeMode_eq (name : String) (requested : Mode) :
    changeMode name requested c = settled c (c.changeMode name requested) := by
  rw [changeMode, CifContainer.changeMode, get_bind]
  rcases c.content? name with _ | ⟨index, content⟩
  · exact inWord_eq (Container.Edit.changeMode_eq name requested)
  · simp only
    rw [get_bind, bind_apply]
    rcases (c.modeAt index).request requested name with error | next
    · rfl
    · simp only [check_ok, Except.map]
      rcases next.presence? with _ | present
      · rfl
      · rfl

theorem enter_eq (name : String) :
    enter name c =
      match c.enter name with
      | .ok (marked, index, inner) => .ok (index, inner) marked
      | .error error => .error error c := by
  rw [enter, CifContainer.enter, get_bind]
  rcases c.index? name with _ | index
  · rfl
  · simp only
    rw [get_bind]
    rcases c.entry? index with _ | ⟨content, cell⟩
    · rfl
    · simp only
      rcases content.type.valueOf cell with value | inner
      · rfl
      · rfl

end Edit

theorem adaptExcept_settled {ε : Type} {work : Edit ε Unit} {change : Except ε CifContainer}
    (h : work c = settled c change) (refuse : ε → OperationError) :
    work.adaptExcept refuse c = outcome (CifOperation.settle c refuse change) := by
  rw [adaptExcept_apply, h]
  rcases change with error | changed
  · rfl
  · rfl

end CifContainer

/-- Carrying out an operation on a group in place comes to the same as running it. -/
theorem CifOperation.perform_eq (operation : CifOperation) {c : CifContainer} (h : c.Fits) :
    operation.perform c = InPlace.outcome (operation.run c) := by
  cases operation with
  | assign name value =>
      exact CifContainer.adaptExcept_settled (CifContainer.Edit.assign_eq _ _) _
  | clear name => exact CifContainer.adaptExcept_settled (CifContainer.Edit.clear_eq _) _
  | changeMode name requested =>
      exact CifContainer.adaptExcept_settled (CifContainer.Edit.changeMode_eq _ _) _
  | touch name =>
      apply CifContainer.adaptExcept_settled
      rw [InPlace.bind_apply, CifContainer.Edit.enter_eq]
      rcases c.enter name with error | ⟨marked, index, inner⟩
      · rfl
      · rfl
  | within name operation =>
      rw [perform, CifContainer.Edit.within, CifContainer.Edit.enter_eq, run, CifContainer.within]
      rcases henter : c.enter name with error | ⟨marked, index, inner⟩
      · rfl
      · simp only [operation.perform_eq (h.enter henter).2.2.1]
        rcases hrun : operation.run inner with ⟨changed, error | answer⟩
        · rfl
        · rfl

/-! ## Refused operations -/

/-- The structures that an operation enters on its way to the one that it changes. -/
def Operation.path : Operation → List String
  | .within name operation => name :: operation.path
  | _ => []

def CifOperation.path : CifOperation → List String
  | .within name operation => name :: operation.path
  | _ => []

/-- The container after entering one structure inside the other, as far as there are structures of
the given names. -/
def Container.descend : List String → Container → Container
  | [], c => c
  | name :: path, c => (c.within name (fun _ => ()) fun inner => (descend path inner, ())).1

def CifContainer.descend (path : List String) (c : CifContainer) : CifContainer :=
  match path with
  | [] => c
  | name :: path => (c.within name (fun _ => ()) fun inner => (inner.descend path, ())).1

theorem CifOperation.eq_of_settle_refused {ε : Type} {c : CifContainer}
    {refuse : ε → OperationError} {change : Except ε CifContainer} {error : OperationError}
    (h : (settle c refuse change).2 = .error error) : (settle c refuse change).1 = c := by
  rcases change with cause | changed
  · rfl
  · cases h

/-- A refused operation leaves what entering the structures on its way leaves. -/
theorem Operation.run_refused (operation : Operation) {c : Container} {error : OperationError}
    (h : (operation.run c).2 = .error error) : (operation.run c).1 = c.descend operation.path := by
  induction operation generalizing c with
  | assignAt index value => exact eq_of_settle_refused h
  | assign name value => exact eq_of_settle_refused h
  | clear name => exact eq_of_settle_refused h
  | assignSymbol name symbol => exact eq_of_settle_refused h
  | changeMode name requested => exact eq_of_settle_refused h
  | touch name => exact eq_of_settle_refused h
  | within name operation ih =>
      rw [run, Container.within] at h ⊢
      rw [path, Container.descend, Container.within]
      rcases henter : c.enter name with cause | ⟨marked, index, inner⟩
      · rfl
      · simp only [henter] at h ⊢
        rw [ih h]

theorem CifOperation.run_refused (operation : CifOperation) {c : CifContainer}
    {error : OperationError} (h : (operation.run c).2 = .error error) :
    (operation.run c).1 = c.descend operation.path := by
  cases operation with
  | assign name value => exact eq_of_settle_refused h
  | clear name => exact eq_of_settle_refused h
  | changeMode name requested => exact eq_of_settle_refused h
  | touch name => exact eq_of_settle_refused h
  | within name operation =>
      rw [run, CifContainer.within] at h ⊢
      rw [path, CifContainer.descend, CifContainer.within]
      rcases henter : c.enter name with cause | ⟨marked, index, inner⟩
      · rfl
      · simp only [henter] at h ⊢
        rw [operation.run_refused h]

theorem InPlace.outcome_eq_error {σ ε α : Type} {result : σ × Except ε α} {error : ε} {left : σ}
    (h : outcome result = .error error left) : result = (left, .error error) := by
  rcases result with ⟨state, cause | answer⟩
  · cases h
    rfl
  · cases h

/-- Refused operations change nothing.  A reachable container on which an operation is carried out
in place and refused has afterwards the same cells as before: every value, shown or hidden, every
enable and every mode, here and in the structures inside.  An operation on a structure inside first
enters it, and when it is refused then, what is left is what entering alone leaves. -/
theorem refused_leaves_unchanged :
    (∀ c : Container, c.Reachable →
      ∀ (operation : Operation) (error : OperationError) (left : Container),
        operation.perform c = .error error left →
          operation.run c = (left, .error error) ∧ left = c.descend operation.path ∧
            (operation.path = [] → left = c)) ∧
      ∀ c : CifContainer, c.Reachable →
        ∀ (operation : CifOperation) (error : OperationError) (left : CifContainer),
          operation.perform c = .error error left →
            operation.run c = (left, .error error) ∧ left = c.descend operation.path ∧
              (operation.path = [] → left = c) := by
  constructor
  · intro c hc operation error left hrefused
    rw [operation.perform_eq hc.fits] at hrefused
    have hrun := InPlace.outcome_eq_error hrefused
    have hleft : left = c.descend operation.path := by
      rw [← operation.run_refused (congrArg Prod.snd hrun), hrun]
    refine ⟨hrun, hleft, ?_⟩
    intro hpath
    rw [hleft, hpath]
    rfl
  · intro c hc operation error left hrefused
    rw [operation.perform_eq hc.fits] at hrefused
    have hrun := InPlace.outcome_eq_error hrefused
    have hleft : left = c.descend operation.path := by
      rw [← operation.run_refused (congrArg Prod.snd hrun), hrun]
    refine ⟨hrun, hleft, ?_⟩
    intro hpath
    rw [hleft, hpath]
    rfl

namespace CifBlueprint.Sample

open Layout.Sample

/-- In a group, entering the gain is refused, because it is no structure, and the gain is not marked
present by that.  In a structure, a kind that does not exist is refused, and the structure around it
stays marked present. -/
theorem refused_touch_announced :
    let announce := CifOperation.touch "gain"
    let assign := Operation.within "pair" (.assign "kind" (.scalar (.unsigned 2)))
    announced.Reachable ∧ (Container.new fullLayout).Reachable ∧
      announce.perform announced =
        .error (.value (.kind "structure" "float")) (announce.run announced).1 ∧
      (announce.run announced).1 = announced ∧
      assign.perform (.new fullLayout) =
        .error (.value (.notMember "kind" "2")) (assign.run (.new fullLayout)).1 ∧
      (assign.run (.new fullLayout)).1 = (Container.new fullLayout).descend ["pair"] := by
  intro announce assign
  have hannounce : announce.perform announced =
      .error (.value (.kind "structure" "float")) (announce.run announced).1 := rfl
  have hassign : assign.perform (.new fullLayout) =
      .error (.value (.notMember "kind" "2")) (assign.run (.new fullLayout)).1 := rfl
  obtain ⟨hplain, hgroup⟩ := refused_leaves_unchanged
  have houter := (hgroup announced reachable_announced announce _ _ hannounce).2.2 rfl
  have hinner := (hplain _ (.new built_fullLayout) assign _ _ hassign).2.1
  exact ⟨reachable_announced, .new built_fullLayout, hannounce, houter, hassign, hinner⟩

end CifBlueprint.Sample

end RadioPacket
