import RadioPacket.Proofs.Layout.Rebinding

/-!
# Rebinding in any order

A rebinding takes bits of one reserved run, and what it leaves of the run on either side is
reserved again.  So another rebinding that needs none of these bits finds its own bits free before
and after, and the two may be exchanged: the target of each may be another run then, at another
index and with other limits, but the items that come out are the same.  A block of rebindings may
therefore be put in any order.  Rebindings that share a bit never go together, in any order and
whatever stands between them, for a field stays where it has been put.
-/

namespace RadioPacket

/-! ## One rebinding, item by item -/

namespace Item

/-- A field takes bits of a reserved run, from the bit `offset` bits behind the first item on: the
first item is this run, or it is passed by. -/
inductive Rebinds (field : Field) : (items : List Item) → (offset : Nat) → (next : List Item) → Prop
    where
  | here {run : Reserved} {rest : List Item} {offset : Nat} : offset + field.bits ≤ run.bits →
      Rebinds field (.reserved run :: rest) offset
        (reservedRun offset ++
          .field field :: (reservedRun (run.bits - offset - field.bits) ++ rest))
  | behind {item : Item} {rest next : List Item} {offset : Nat} : Rebinds field rest offset next →
      Rebinds field (item :: rest) (item.bits + offset) (item :: next)

namespace Rebinds

variable {field f g : Field} {items others next : List Item} {offset : Nat}

theorem prepend (others : List Item) (h : Rebinds field items offset next) :
    Rebinds field (others ++ items) (totalBits others + offset) (others ++ next) := by
  induction others with
  | nil =>
      rw [totalBits, Nat.zero_add]
      exact h
  | cons item others ih =>
      rw [totalBits, Nat.add_assoc]
      exact .behind ih

theorem append_cases (h : Rebinds field (items ++ others) offset next) :
    (∃ front, Rebinds field items offset front ∧ next = front ++ others) ∨
      ∃ inner back, offset = totalBits items + inner ∧ Rebinds field others inner back ∧
        next = items ++ back := by
  induction items generalizing offset next with
  | nil => exact .inr ⟨offset, next, (Nat.zero_add offset).symm, h, rfl⟩
  | cons item items ih =>
      cases h with
      | here hroom => exact .inl ⟨_, .here hroom, by simp⟩
      | behind hrest =>
          rcases ih hrest with ⟨front, hfront, rfl⟩ | ⟨inner, back, rfl, hback, rfl⟩
          · exact .inl ⟨item :: front, .behind hfront, rfl⟩
          · exact .inr ⟨inner, back, by rw [totalBits, Nat.add_assoc], hback, rfl⟩

theorem exists_cut (h : Rebinds field items offset next) :
    ∃ before run inner after, items = before ++ .reserved run :: after ∧
      totalBits before + inner = offset ∧ inner + field.bits ≤ run.bits ∧
      next = before ++ (reservedRun inner ++
        .field field :: (reservedRun (run.bits - inner - field.bits) ++ after)) := by
  induction h with
  | @here run rest offset hroom =>
      exact ⟨[], run, offset, rest, rfl, Nat.zero_add offset, hroom, rfl⟩
  | @behind item rest next offset _ ih =>
      obtain ⟨before, run, inner, after, rfl, rfl, hroom, rfl⟩ := ih
      exact ⟨item :: before, run, inner, after, rfl, Nat.add_assoc .., hroom, rfl⟩

theorem of_reservedRun {bits : Nat} (h : Rebinds field (reservedRun bits) offset next) :
    offset + field.bits ≤ bits ∧
      next = reservedRun offset ++ .field field :: reservedRun (bits - offset - field.bits) := by
  unfold reservedRun at h
  split at h
  · cases h
  · cases h with
    | here hroom => exact ⟨hroom, by rw [List.append_nil]⟩
    | behind hrest => cases hrest

theorem reservedRun_append (hwide : 0 < field.bits) {bits : Nat}
    (hroom : offset + field.bits ≤ bits) (rest : List Item) :
    Rebinds field (reservedRun bits ++ rest) offset
      (reservedRun offset ++
        .field field :: (reservedRun (bits - offset - field.bits) ++ rest)) := by
  have hrun : reservedRun bits = [.reserved { bits }] := if_neg (by omega)
  rw [hrun]
  exact .here hroom

theorem behind_field {bits a b : Nat} (hwide : 0 < f.bits) (hfree : b + g.bits ≤ a)
    (hroom : a + f.bits ≤ bits) (rest : List Item) :
    Rebinds f (reservedRun b ++ .field g :: (reservedRun (bits - b - g.bits) ++ rest)) a
      (reservedRun b ++ .field g :: (reservedRun (a - b - g.bits) ++
        .field f :: (reservedRun (bits - a - f.bits) ++ rest))) := by
  have hshort : a - b - g.bits + f.bits ≤ bits - b - g.bits := by omega
  have hbehind := (reservedRun_append hwide hshort rest).prepend (reservedRun b ++ [.field g])
  have hgbits : (Item.field g).bits = g.bits := rfl
  have hoffset : totalBits (reservedRun b ++ [.field g]) + (a - b - g.bits) = a := by
    rw [totalBits_append, totalBits_reservedRun, totalBits, totalBits, hgbits]
    omega
  have hleft : bits - b - g.bits - (a - b - g.bits) - f.bits = bits - a - f.bits := by omega
  rw [hoffset, hleft] at hbehind
  simpa using hbehind

theorem behind_cut {run : Reserved} {rest next : List Item} {a b : Nat}
    (hroom : b + g.bits ≤ run.bits) (h : Rebinds f rest a next) :
    Rebinds f (reservedRun b ++ .field g :: (reservedRun (run.bits - b - g.bits) ++ rest))
      ((Item.reserved run).bits + a)
      (reservedRun b ++ .field g :: (reservedRun (run.bits - b - g.bits) ++ next)) := by
  have hpassed := h.prepend (reservedRun b ++ .field g :: reservedRun (run.bits - b - g.bits))
  have htotal : totalBits (reservedRun b ++ .field g :: reservedRun (run.bits - b - g.bits)) =
      (Item.reserved run).bits := by
    have hgbits : (Item.field g).bits = g.bits := rfl
    have hrun : (Item.reserved run).bits = run.bits := rfl
    rw [totalBits_append, totalBits, totalBits_reservedRun, totalBits_reservedRun, hgbits, hrun]
    omega
  rw [htotal] at hpassed
  simpa using hpassed

/-- Rebindings may be exchanged. -/
theorem swap (hwide : 0 < f.bits) {a b : Nat} {mid last : List Item} (hf : Rebinds f items a mid)
    (hg : Rebinds g mid b last) : ∃ other, Rebinds g items b other ∧ Rebinds f other a last := by
  induction hf generalizing b last with
  | behind hrest ih =>
      cases hg with
      | here hroom => exact ⟨_, .here hroom, behind_cut hroom hrest⟩
      | behind hnext =>
          obtain ⟨other, hother, hlast⟩ := ih hnext
          exact ⟨_, .behind hother, .behind hlast⟩
  | @here run rest a hroom =>
      -- The second field goes in front of the first, behind it in the same run, or further on.
      rcases hg.append_cases with ⟨_, hfront, rfl⟩ | ⟨_, _, rfl, hback, rfl⟩
      · obtain ⟨hfree, rfl⟩ := hfront.of_reservedRun
        have hother := behind_field hwide hfree hroom rest
        exact ⟨_, .here (by omega), by simpa using hother⟩
      · cases hback with
        | @behind _ _ _ inner htail =>
            have hfbits : (Item.field f).bits = f.bits := rfl
            rw [totalBits_reservedRun, hfbits]
            rcases htail.append_cases with ⟨_, hmiddle, rfl⟩ | ⟨inner, _, rfl, hrest, rfl⟩
            · obtain ⟨hfree, rfl⟩ := hmiddle.of_reservedRun
              have hbetween : a + (f.bits + inner) - a - f.bits = inner := by omega
              have hleft : run.bits - (a + (f.bits + inner)) - g.bits =
                  run.bits - a - f.bits - inner - g.bits := by omega
              have hother := reservedRun_append hwide
                (show a + f.bits ≤ a + (f.bits + inner) by omega)
                (.field g :: (reservedRun (run.bits - a - f.bits - inner - g.bits) ++ rest))
              rw [hbetween] at hother
              refine ⟨_, .here (by omega), ?_⟩
              rw [hleft]
              simpa using hother
            · have hoffset : a + (f.bits + (totalBits (reservedRun (run.bits - a - f.bits)) +
                  inner)) = (Item.reserved run).bits + inner := by
                have hrun : (Item.reserved run).bits = run.bits := rfl
                rw [totalBits_reservedRun, hrun]
                omega
              rw [hoffset]
              exact ⟨_, .behind hrest, .here hroom⟩

end Rebinds

end Item

namespace Blueprint

/-- A field that has bits is rebound where the items have room for it. -/
theorem placeRebound_eq_ok_iff {owner : String} {placed next : List Item} {position : Position}
    {field : Field} (hwide : 0 < field.bits) :
    placeRebound owner placed position field = .ok next ↔
      Item.Rebinds field placed position.offset next := by
  constructor
  · intro h
    obtain ⟨before, run, inner, after, rfl, hoffset, hroom, rfl⟩ := placeRebound_eq_ok h
    rw [← hoffset]
    have hhere : Item.Rebinds field (.reserved run :: after) inner _ := .here hroom
    simpa using hhere.prepend before
  · intro h
    obtain ⟨before, run, inner, after, rfl, hoffset, hroom, rfl⟩ := h.exists_cut
    have hinner : inner < (Item.reserved run).bits := Nat.lt_of_lt_of_le (by omega) hroom
    rw [placeRebound, ← hoffset, Item.cutAt?_append hinner]
    simp only [if_neg (Nat.not_lt_of_le hroom)]
    simp

end Blueprint

/-! ## Blocks of rebindings -/

/-- What a step asks for when it rebinds. -/
structure Rebinding where
  position : Position
  field : Field

namespace Rebinding

def step (rebinding : Rebinding) : Step := .rebind rebinding.position rebinding.field

/-- The bit is among those that the field takes. -/
def Takes (rebinding : Rebinding) (bit : Nat) : Prop :=
  rebinding.position.offset ≤ bit ∧ bit < rebinding.position.offset + rebinding.field.bits

/-- No bit is taken by both. -/
def Apart (a b : Rebinding) : Prop := ∀ bit, ¬ (a.Takes bit ∧ b.Takes bit)

end Rebinding

def Step.rebinding? : Step → Option Rebinding
  | .append _ => none
  | .rebind position field => some ⟨position, field⟩

namespace Cursor

theorem within_of_mem_lay {position : Position} {items : List Item} {entry : Placed}
    (h : entry ∈ lay position items) :
    position.offset ≤ entry.start.offset ∧
      entry.finish.offset ≤ position.offset + Item.totalBits items := by
  induction items generalizing position with
  | nil => cases h
  | cons item items ih =>
      have hnext : (position + item.bits).offset = position.offset + item.bits := rfl
      rw [Item.totalBits]
      rcases List.mem_cons.mp h with rfl | hrest
      · have hfinish : Placed.finish ⟨item, position⟩ = position + item.bits := rfl
        rw [hfinish, hnext]
        exact ⟨Nat.le_refl _, by omega⟩
      · have hwithin := ih hrest
        omega

/-- A rebinding takes none of the bits of a field or an enable that has been placed. -/
theorem apart_of_placeRebound {owner : String} {placed next : List Item} {position : Position}
    {field : Field} (h : Blueprint.placeRebound owner placed position field = .ok next)
    {entry : Placed} (hsolid : entry.item.isReserved = false)
    (hentry : entry ∈ lay .start placed) :
    position.offset + field.bits ≤ entry.start.offset ∨
      entry.finish.offset ≤ position.offset := by
  obtain ⟨before, run, inner, after, rfl, hoffset, hroom, _⟩ := Blueprint.placeRebound_eq_ok h
  have hrun : (Item.reserved run).bits = run.bits := rfl
  rw [lay_append, List.mem_append, start_add, lay, List.mem_cons] at hentry
  rcases hentry with hbefore | rfl | hafter
  · have hwithin := within_of_mem_lay hbefore
    have hstart : Position.start.offset = 0 := rfl
    omega
  · cases hsolid
  · have hwithin := within_of_mem_lay hafter
    have hbehind : ((⟨Item.totalBits before⟩ : Position) + (Item.reserved run).bits).offset =
        Item.totalBits before + run.bits := rfl
    omega

theorem mem_lay_of_placeRebound {owner : String} {placed next : List Item} {position : Position}
    {field : Field} (h : Blueprint.placeRebound owner placed position field = .ok next) :
    ⟨.field field, position⟩ ∈ lay .start next := by
  obtain ⟨before, run, inner, after, rfl, hoffset, hroom, rfl⟩ := Blueprint.placeRebound_eq_ok h
  rw [lay_rebound hroom, hoffset]
  simp

end Cursor

namespace Blueprint

variable {owner : String} {steps : List Step} {placed last : List Item}

/-- A field or an enable that stands already is spared by all rebindings that succeed later. -/
theorem apart_of_place (h : steps.foldlM (placeStep owner) placed = .ok last) {entry : Placed}
    (hsolid : entry.item.isReserved = false) (hentry : entry ∈ Cursor.lay .start placed) :
    ∀ rebinding ∈ steps.filterMap Step.rebinding?,
      rebinding.position.offset + rebinding.field.bits ≤ entry.start.offset ∨
        entry.finish.offset ≤ rebinding.position.offset := by
  induction steps generalizing placed with
  | nil => simp
  | cons step steps ih =>
      obtain ⟨next, hstep, hrest⟩ := Fallible.bind_eq_ok.mp h
      have hlater := ih hrest (Cursor.mem_lay_of_placeStep hstep hsolid hentry)
      cases step with
      | append item => exact hlater
      | rebind position field =>
          intro rebinding hmem
          rcases List.mem_cons.mp hmem with rfl | hmem
          · exact Cursor.apart_of_placeRebound hstep hsolid hentry
          · exact hlater rebinding hmem

/-- Rebindings that succeed one after the other, whatever stands between them, share no bit. -/
theorem pairwise_apart_of_place (h : steps.foldlM (placeStep owner) placed = .ok last) :
    (steps.filterMap Step.rebinding?).Pairwise Rebinding.Apart := by
  induction steps generalizing placed with
  | nil => exact .nil
  | cons step steps ih =>
      obtain ⟨next, hstep, hrest⟩ := Fallible.bind_eq_ok.mp h
      cases step with
      | append item => exact ih hrest
      | rebind position field =>
          refine List.pairwise_cons.mpr ⟨?_, ih hrest⟩
          intro later hlater bit ⟨hfirst, hsecond⟩
          have hplaced := Cursor.mem_lay_of_placeRebound hstep
          have hspared := apart_of_place hrest rfl hplaced later hlater
          have hfinish : Placed.finish ⟨.field field, position⟩ = position + field.bits := rfl
          have hend : (position + field.bits).offset = position.offset + field.bits := rfl
          simp only [Rebinding.Takes, hfinish, hend] at hfirst hsecond hspared
          omega

end Blueprint

namespace Blueprint

/-- The blueprint with a block of rebindings behind its own steps, and then some later steps. -/
def withBlock (blueprint : Blueprint) (block : List Rebinding) (later : List Step) : Blueprint :=
  { blueprint with steps := blueprint.steps ++ block.map Rebinding.step ++ later }

variable {blueprint : Blueprint} {block order : List Rebinding} {later : List Step}
  {layout : Layout}

/-- Rebindings of fields that have bits give the same items in every order. -/
theorem placeAll_perm {owner : String} {placed last : List Item} (hperm : block.Perm order)
    (hwide : ∀ rebinding ∈ block, 0 < rebinding.field.bits)
    (h : (block.map Rebinding.step).foldlM (placeStep owner) placed = .ok last) :
    (order.map Rebinding.step).foldlM (placeStep owner) placed = .ok last := by
  rw [List.foldlM_map] at h ⊢
  refine Fallible.foldlM_perm ?_ hperm hwide h
  intro a b ha hb placed next last hfirst hsecond
  have hfirst := (placeRebound_eq_ok_iff ha).mp hfirst
  have hsecond := (placeRebound_eq_ok_iff hb).mp hsecond
  obtain ⟨other, hother, hlast⟩ := hfirst.swap ha hsecond
  exact ⟨other, (placeRebound_eq_ok_iff hb).mpr hother, (placeRebound_eq_ok_iff ha).mpr hlast⟩

theorem wide_of_build (h : (blueprint.withBlock block later).build = .ok layout) :
    ∀ rebinding ∈ block, 0 < rebinding.field.bits := by
  obtain ⟨placed, _, hplace, hcheck, _⟩ := build_eq_ok h
  obtain ⟨hwide, _⟩ := checkItems_eq_ok.mp hcheck
  intro rebinding hmem
  have hstep : rebinding.step ∈ (blueprint.withBlock block later).steps := by
    apply List.mem_append_left
    exact List.mem_append_right _ (List.mem_map_of_mem hmem)
  exact hwide (.field rebinding.field) (mem_of_place_step hplace hstep rfl)

/-- A build that succeeds with a block of rebindings succeeds with them in any order, and gives the
same layout. -/
theorem build_withBlock_perm (hperm : block.Perm order)
    (h : (blueprint.withBlock block later).build = .ok layout) :
    (blueprint.withBlock order later).build = .ok layout := by
  have hwide := wide_of_build h
  obtain ⟨⟨placed, hplace, hfreeze⟩, hobjection⟩ := build_iff.mp h
  refine build_iff.mpr ⟨⟨placed, ?_, hfreeze⟩, hobjection⟩
  simp only [place, withBlock, List.foldlM_append, Fallible.bind_eq_ok] at hplace ⊢
  obtain ⟨between, ⟨before, hbefore, hblock⟩, hlater⟩ := hplace
  exact ⟨between, ⟨before, hbefore, placeAll_perm hperm hwide hblock⟩, hlater⟩

theorem pairwise_apart_of_build (h : blueprint.build = .ok layout) :
    (blueprint.steps.filterMap Step.rebinding?).Pairwise Rebinding.Apart := by
  obtain ⟨placed, _, hplace, _⟩ := build_eq_ok h
  exact pairwise_apart_of_place hplace

/-- A block of rebindings, whatever steps stand before and behind it, may be put in any order: the
build fails in every order, or it gives the same layout in every order.  It fails in every order
when two rebindings of the blueprint, in the block or outside it, take the same bit. -/
theorem build_withBlock_order_free (blueprint : Blueprint) (block : List Rebinding)
    (later : List Step) :
    ((∀ order, block.Perm order →
        ∃ error, (blueprint.withBlock order later).build = .error error) ∨
      ∃ layout, ∀ order, block.Perm order →
        (blueprint.withBlock order later).build = .ok layout) ∧
    ∀ a b bit, [a, b].Sublist ((blueprint.withBlock block later).steps.filterMap Step.rebinding?) →
      a.Takes bit → b.Takes bit → ∀ order, block.Perm order →
        ∃ error, (blueprint.withBlock order later).build = .error error := by
  constructor
  · by_cases hbuilds : ∃ order, block.Perm order ∧
        ∃ layout, (blueprint.withBlock order later).build = .ok layout
    · right
      obtain ⟨order, hperm, layout, hlayout⟩ := hbuilds
      exact ⟨layout, fun other hother => build_withBlock_perm (hperm.symm.trans hother) hlayout⟩
    · left
      intro order hperm
      rcases hbuild : (blueprint.withBlock order later).build with error | layout
      · exact ⟨error, rfl⟩
      · exact absurd ⟨order, hperm, layout, hbuild⟩ hbuilds
  · intro a b bit hpair ha hb order hperm
    rcases hbuild : (blueprint.withBlock order later).build with error | layout
    · exact ⟨error, rfl⟩
    · have hapart := pairwise_apart_of_build (build_withBlock_perm hperm.symm hbuild)
      exact absurd ⟨ha, hb⟩ (List.pairwise_iff_forall_sublist.mp hapart hpair bit)

end Blueprint

namespace Layout.Sample

def levelRebinding : Rebinding := ⟨⟨3⟩, { name := "level", type := .leaf level }⟩

def kindRebinding (offset : Nat) : Rebinding := ⟨⟨offset⟩, { name := "kind", type := .leaf kind }⟩

/-- Two fields go into the free bits of the frame in either order, unless one of them is asked to
start in the last bits of the other. -/
theorem frame_in_either_order :
    [levelRebinding, kindRebinding 12].Perm [kindRebinding 12, levelRebinding] ∧
      (∃ layout,
        ((Blueprint.extend "card" frameLayout).withBlock
          [levelRebinding, kindRebinding 12] []).build = .ok layout ∧
        ((Blueprint.extend "card" frameLayout).withBlock
          [kindRebinding 12, levelRebinding] []).build = .ok layout) ∧
      ∃ error, ((Blueprint.extend "card" frameLayout).withBlock
        [kindRebinding 9, levelRebinding] []).build = .error error := by
  have hperm (offset : Nat) :
      [levelRebinding, kindRebinding offset].Perm [kindRebinding offset, levelRebinding] := .swap ..
  obtain ⟨horders, _⟩ := (Blueprint.extend "card" frameLayout).build_withBlock_order_free
    [levelRebinding, kindRebinding 12] []
  obtain ⟨_, hshared⟩ := (Blueprint.extend "card" frameLayout).build_withBlock_order_free
    [levelRebinding, kindRebinding 9] []
  refine ⟨hperm 12, ?_, ?_⟩
  · rcases horders with hfails | ⟨layout, hbuilds⟩
    · obtain ⟨error, herror⟩ := hfails _ (List.Perm.refl _)
      cases herror
    · exact ⟨layout, hbuilds _ (List.Perm.refl _), hbuilds _ (hperm 12)⟩
  · have hbit : levelRebinding.Takes 10 ∧ (kindRebinding 9).Takes 10 := by
      simp only [Rebinding.Takes]
      decide
    exact hshared _ _ 10 (List.Sublist.refl _) hbit.1 hbit.2 _ (hperm 9)

end Layout.Sample

end RadioPacket
