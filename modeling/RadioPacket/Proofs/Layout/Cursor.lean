import RadioPacket.Layout.Cursor
import RadioPacket.Proofs.Layout.Built

/-!
# Placing with a cursor and without

Items that stand one behind the other determine their positions and the cursor behind them.  Every
step of a blueprint keeps them so, which is why both accounts of building agree on every blueprint,
down to the error, and why the walk over stored positions never finds a gap.
-/

namespace RadioPacket

theorem Position.mk_add (offset bits : Nat) :
    (⟨offset⟩ : Position) + bits = ⟨offset + bits⟩ := rfl

namespace Cursor

/-- Items put one behind the other from a position on. -/
def lay (position : Position) : List Item → List Placed
  | [] => []
  | item :: rest => ⟨item, position⟩ :: lay (position + item.bits) rest

/-- The cursor behind items that stand one behind the other from the start on. -/
def behind (items : List Item) : Cursor := ⟨lay .start items, ⟨Item.totalBits items⟩⟩

@[simp] theorem length_lay (position : Position) (items : List Item) :
    (lay position items).length = items.length := by
  induction items generalizing position with
  | nil => rfl
  | cons item items ih => simp [lay, ih]

@[simp] theorem map_item_lay (position : Position) (items : List Item) :
    (lay position items).map Placed.item = items := by
  induction items generalizing position with
  | nil => rfl
  | cons item items ih => simp [lay, ih]

theorem add_totalBits_cons (position : Position) (item : Item) (items : List Item) :
    position + Item.totalBits (item :: items) = position + item.bits + Item.totalBits items := by
  change Position.mk _ = Position.mk _
  simp [Item.totalBits, Nat.add_assoc]

theorem lay_append (position : Position) (items others : List Item) :
    lay position (items ++ others) =
      lay position items ++ lay (position + Item.totalBits items) others := by
  induction items generalizing position with
  | nil => rfl
  | cons item items ih => rw [List.cons_append, lay, ih, add_totalBits_cons]; rfl

theorem start_add (bits : Nat) : Position.start + bits = ⟨bits⟩ := by
  rw [Position.start, Position.mk_add, Nat.zero_add]

/-! ## Steps -/

theorem append_behind (items : List Item) (item : Item) :
    (behind items).append item = (Blueprint.placeItem items item).map behind := by
  have hnext : (behind items).position + item.bits =
      ⟨Item.totalBits items + item.bits⟩ := rfl
  by_cases hlimits : item.bits ≤ item.maxBits ∧
      Item.totalBits items + item.bits ≤ Layout.maxBits
  · have hadvance : advance (behind items).position item =
        .ok ⟨Item.totalBits items + item.bits⟩ := by
      simp only [advance, hnext, if_pos hlimits]
    have hbehind : behind (items ++ [item]) =
        ⟨lay .start items ++ [⟨item, ⟨Item.totalBits items⟩⟩],
          ⟨Item.totalBits items + item.bits⟩⟩ := by
      rw [behind, lay_append, start_add, Item.totalBits_append]
      simp [lay, Item.totalBits]
    rw [append, hadvance, Blueprint.placeItem, if_pos hlimits]
    exact congrArg Except.ok hbehind.symm
  · have hadvance : advance (behind items).position item =
        .error (.itemWidth item.kind item.bits) := by
      simp only [advance, hnext, if_neg hlimits]
    rw [append, hadvance, Blueprint.placeItem, if_neg hlimits]
    rfl

theorem findIdx?_covers_lay (position : Position) (items : List Item) (offset : Nat) :
    (lay position items).findIdx? (Placed.covers (position + offset)) =
      (Item.cutAt? items offset).map fun cut => cut.before.length := by
  induction items generalizing position offset with
  | nil => rfl
  | cons item items ih =>
      rw [lay, List.findIdx?_cons, Item.cutAt?]
      by_cases hinside : offset < item.bits
      · have hcovers : Placed.covers (position + offset) ⟨item, position⟩ = true := by
          simp [Placed.covers, Placed.finish, hinside]
        rw [hcovers, if_pos hinside]
        rfl
      · have hcovers : Placed.covers (position + offset) ⟨item, position⟩ = false := by
          simp [Placed.covers, Placed.finish, hinside]
        have hshift : position + offset = position + item.bits + (offset - item.bits) := by
          change Position.mk _ = Position.mk _
          simp
          omega
        rw [hcovers, if_neg hinside, hshift, ih, Option.map_map, Option.map_map]
        rfl

theorem reservedBetween_eq_lay {start finish : Position} (hle : start.offset ≤ finish.offset) :
    reservedBetween start finish = lay start (Item.reservedRun (finish.offset - start.offset)) := by
  unfold reservedBetween Item.reservedRun
  by_cases hlt : start.offset < finish.offset
  · rw [if_pos hlt, if_neg (by omega)]
    rfl
  · rw [if_neg hlt, if_pos (by omega)]
    rfl

/-- A field that takes part of a run, with what is left of the run around it, stands one behind
the other with the items before and after. -/
theorem lay_rebound {before after : List Item} {run : Reserved} {field : Field} {inner : Nat}
    (hfits : inner + field.bits ≤ run.bits) :
    lay .start (before ++ Item.reservedRun inner ++ [.field field] ++
        Item.reservedRun (run.bits - inner - field.bits) ++ after) =
      lay .start before ++ lay ⟨Item.totalBits before⟩ (Item.reservedRun inner) ++
        [⟨.field field, ⟨Item.totalBits before + inner⟩⟩] ++
        lay ⟨Item.totalBits before + inner + field.bits⟩
          (Item.reservedRun (run.bits - inner - field.bits)) ++
        lay ⟨Item.totalBits before + run.bits⟩ after := by
  have hfield : (Item.field field).bits = field.bits := rfl
  have hend : Item.totalBits before + inner + field.bits + (run.bits - inner - field.bits) =
      Item.totalBits before + run.bits := by omega
  simp only [lay_append, start_add, Item.totalBits_append, Item.totalBits_reservedRun,
    Item.totalBits, hfield, Nat.add_zero, hend]
  rfl

theorem behind_rebound {before after : List Item} {run : Reserved} {field : Field} {inner : Nat}
    (hfits : inner + field.bits ≤ run.bits) :
    behind (before ++ Item.reservedRun inner ++ [.field field] ++
        Item.reservedRun (run.bits - inner - field.bits) ++ after) =
      ⟨lay .start before ++ lay ⟨Item.totalBits before⟩ (Item.reservedRun inner) ++
          [⟨.field field, ⟨Item.totalBits before + inner⟩⟩] ++
          lay ⟨Item.totalBits before + inner + field.bits⟩
            (Item.reservedRun (run.bits - inner - field.bits)) ++
          lay ⟨Item.totalBits before + run.bits⟩ after,
        ⟨Item.totalBits (before ++ .reserved run :: after)⟩⟩ := by
  have hfield : (Item.field field).bits = field.bits := rfl
  have hrun : (Item.reserved run).bits = run.bits := rfl
  rw [behind, lay_rebound hfits, Cursor.mk.injEq]
  refine ⟨rfl, ?_⟩
  simp only [Item.totalBits_append, Item.totalBits_reservedRun, Item.totalBits, hfield, hrun,
    Nat.add_zero, Position.mk.injEq]
  omega

theorem lay_cut (before after : List Item) (item : Item) :
    (lay .start (before ++ item :: after))[before.length]? =
        some ⟨item, ⟨Item.totalBits before⟩⟩ ∧
      (lay .start (before ++ item :: after)).take before.length = lay .start before ∧
      (lay .start (before ++ item :: after)).drop (before.length + 1) =
        lay ⟨Item.totalBits before + item.bits⟩ after := by
  have hlaid : lay .start (before ++ item :: after) = lay .start before ++
      ⟨item, ⟨Item.totalBits before⟩⟩ :: lay ⟨Item.totalBits before + item.bits⟩ after := by
    rw [lay_append, start_add]
    rfl
  rw [hlaid]
  refine ⟨?_, ?_, ?_⟩
  · rw [List.getElem?_append_right (by simp)]
    simp
  · rw [List.take_left' (by simp)]
  · rw [List.append_cons, List.drop_left' (by simp)]

theorem rebind_behind (name : String) (items : List Item) (position : Position) (field : Field) :
    rebind name (behind items) position field =
      (Blueprint.placeRebound name items position field).map behind := by
  have hfind := findIdx?_covers_lay .start items position.offset
  rw [start_add] at hfind
  unfold rebind Blueprint.placeRebound
  cases hcut : Item.cutAt? items position.offset with
  | none =>
      rw [hcut] at hfind
      simp only [behind, hfind, Option.map_none]
      rfl
  | some cut =>
      obtain ⟨before, item, inner, after⟩ := cut
      obtain ⟨hitems, hoffset, hinner⟩ := Item.cutAt?_eq_some hcut
      simp only at hitems hoffset hinner
      subst hitems
      rw [hcut] at hfind
      obtain ⟨hat, htake, hdrop⟩ := lay_cut before after item
      -- Both accounts refuse to cut anything but a run, for the same reason.
      cases item with
      | field _ =>
          simp only [behind, hfind, Option.map_some, hat]
          rfl
      | enable _ =>
          simp only [behind, hfind, Option.map_some, hat]
          rfl
      | reserved run =>
          have hposition : position = ⟨Item.totalBits before + inner⟩ := by rw [hoffset]
          subst hposition
          simp only [behind, hfind, Option.map_some, hat]
          rw [Position.mk_add, Position.mk_add, htake, hdrop]
          by_cases hfits : inner + field.bits ≤ run.bits
          · have hrest : Item.totalBits before + run.bits -
                (Item.totalBits before + inner + field.bits) = run.bits - inner - field.bits := by
              omega
            rw [if_neg (by simp only; omega), if_neg (by omega),
              reservedBetween_eq_lay (by simp), reservedBetween_eq_lay (by simp only; omega)]
            simp only [Nat.add_sub_cancel_left, hrest]
            exact congrArg Except.ok (behind_rebound hfits).symm
          · rw [if_pos (by simp only; omega), if_pos (by omega)]
            rfl

/-- A step keeps the items one behind the other, or fails in both accounts. -/
theorem step_behind (name : String) (items : List Item) (next : Step) :
    step name (behind items) next = (Blueprint.placeStep name items next).map behind := by
  cases next with
  | append item => exact append_behind items item
  | rebind position field => exact rebind_behind name items position field

/-! ## Freezing -/

/-- Items that stand one behind the other pass the walk exactly when they pass the check that does
without positions; the walk finds no gap. -/
theorem replay_lay (name : String) (seen : List String) (position : Position)
    (items : List Item) :
    replay name position seen (lay position items) =
      ((Blueprint.checkItems name seen items).mapError .layout).map fun _ =>
        position + Item.totalBits items := by
  induction items generalizing seen position with
  | nil => rfl
  | cons item items ih =>
      rw [lay, replay, Blueprint.checkItems]
      by_cases hbits : item.bits = 0
      · rw [if_pos hbits, if_pos hbits]
        rfl
      · rw [if_neg hbits, if_neg hbits, if_neg (not_not_intro rfl), add_totalBits_cons]
        cases hname : item.name? with
        | none => exact ih seen (position + item.bits)
        | some label =>
            simp only
            by_cases hseen : label ∈ seen
            · rw [if_pos hseen, if_pos hseen]
              rfl
            · rw [if_neg hseen, if_neg hseen]
              exact ih (label :: seen) (position + item.bits)

theorem zipWith_lay (all : List Item) (position : Position) {items resolved : List Item}
    (h : resolved.map Item.untied = items.map Item.untied) :
    List.zipWith (fun (placed : Placed) (item : Item) =>
        (⟨item, placed.start, Linkage.partner? all item⟩ : Slot)) (lay position items) resolved =
      Linkage.slotsFrom all position resolved := by
  induction items generalizing position resolved with
  | nil =>
      obtain rfl : resolved = [] := by simpa using h
      rfl
  | cons item items ih =>
      cases resolved with
      | nil => simp at h
      | cons first resolved =>
          simp only [List.map_cons, List.cons.injEq] at h
          have hbits : item.bits = first.bits := by
            rw [← Item.bits_untied item, ← h.1, Item.bits_untied]
          rw [lay, List.zipWith_cons_cons, Linkage.slotsFrom, hbits, ih _ h.2]

theorem freeze_behind (name : String) (items : List Item) (dynamicSize : Bool) :
    freeze name (behind items).placed dynamicSize =
      (Blueprint.freeze name items dynamicSize).mapError .layout := by
  unfold freeze Blueprint.freeze
  rw [behind, replay_lay, map_item_lay, start_add]
  cases Blueprint.checkItems name [] items with
  | error cause => rfl
  | ok _ =>
      cases hresolved : Linkage.resolve name items with
      | error cause => rfl
      | ok resolved =>
          have hslots : slots (lay .start items) resolved = Linkage.slots resolved :=
            zipWith_lay resolved .start (Linkage.resolve_untied hresolved)
          change Except.ok (Layout.mk name (slots (lay .start items) resolved) _ _ _) = _
          rw [hslots]
          rfl

/-- From items that stand one behind the other, both accounts of building agree. -/
theorem build_behind (blueprint : Blueprint) :
    (behind blueprint.base).build blueprint = blueprint.build.mapError .layout := by
  have hsteps := Fallible.foldlM_map (fun step (_ : step ∈ blueprint.steps) items =>
    step_behind blueprint.name items step) blueprint.base
  unfold build Blueprint.build Blueprint.draft Blueprint.place
  rw [hsteps]
  cases blueprint.steps.foldlM (Blueprint.placeStep blueprint.name) blueprint.base with
  | error cause => rfl
  | ok items =>
      change (freeze blueprint.name (behind items).placed blueprint.dynamicSize >>= _) = _
      rw [freeze_behind]
      change _ = ((Blueprint.freeze blueprint.name items blueprint.dynamicSize >>= _).mapError _)
      cases Blueprint.freeze blueprint.name items blueprint.dynamicSize with
      | error cause => rfl
      | ok layout =>
          simp only [bind, Except.bind, Except.mapError]
          cases blueprint.objection? layout with
          | none => rfl
          | some warning => rfl

end Cursor

end RadioPacket
