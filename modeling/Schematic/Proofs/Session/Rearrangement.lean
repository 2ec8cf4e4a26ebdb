import Schematic.Proofs.Session.Reachable
import Schematic.Proofs.Store.Addition

namespace Schematic.Session

variable {s : Session} {r moved : Revision} {id : ObjectId} {name : String}

/-- Of two moves of one object the second alone counts, for what is answered and for what comes of
it, unless it names the object itself. The move to the old parent and in front of the old next
sibling leads back. -/
theorem Reachable.relocations (h : s.Reachable) (hr : s.revision? name = some r)
    {first : Placement} (hmove : r.relocate id first = .ok moved) :
    (∀ second : Placement, second.before ≠ some id →
      moved.relocate id second = r.relocate id second) ∧
    ∃ parent index, r.location? id = some (parent, index) ∧
      moved.relocate id ⟨parent, (r.attachedTo parent)[index + 1]?⟩ = .ok r := by
  have wf := (h.sound hr).wellFormed
  obtain ⟨htransient, hplace, -⟩ := Revision.relocate_eq_ok_iff.mp hmove
  obtain ⟨hid, -⟩ := (Placement.check_eq_ok_iff_of_wellFormed wf).mp hplace
  obtain ⟨parent, index, hlocation⟩ := wf.exists_location?_eq_some (hid id rfl)
  obtain ⟨hnext, hback⟩ := Revision.relocate_eq_self wf htransient hlocation
  refine ⟨fun second => Revision.relocate_of_relocate wf hmove, parent, index, hlocation, ?_⟩
  rw [Revision.relocate_of_relocate wf hmove hnext, hback]

theorem relocations_nested :
    ∃ r moved, nested.revision? "a" = some r ∧ r.relocate ⟨1⟩ ⟨none, some ⟨4⟩⟩ = .ok moved ∧
      moved.objects = [⟨0⟩, ⟨3⟩, ⟨1⟩, ⟨2⟩, ⟨4⟩] ∧
        moved.relocate ⟨1⟩ ⟨some ⟨2⟩, none⟩ = .error (.invalidParent ⟨2⟩) ∧
          moved.relocate ⟨1⟩ ⟨some ⟨0⟩, some ⟨3⟩⟩ = .ok r := by
  have hr : nested.revision? "a" = some _ := rfl
  have hmoves := fun moved
      (hmove : Revision.relocate _ ⟨1⟩ ⟨none, some ⟨4⟩⟩ = .ok moved) =>
    reachable_nested.relocations hr hmove
  refine ⟨_, _, hr, rfl, rfl, ?_⟩
  obtain ⟨habsorbs, parent, index, hlocation, hback⟩ := hmoves _ rfl
  cases hlocation
  exact ⟨(habsorbs ⟨some ⟨2⟩, none⟩ (by decide)).trans rfl, hback⟩

/-- Adding a valid payload at the end and moving the new object to a place gives what adding it in
that place gives, if the place does not name the new object: both are refused for the same reason,
or they come to the same but for the name of the new object, which may be taken from what is
`later` left of the supply. Deleting the object that has been added in place restores everything. -/
theorem Reachable.additions (h : s.Reachable) (hr : s.revision? name = some r)
    (htransient : r.transient = true) {later : Supply} (hlater : later.Remains s.supply)
    (payload : Payload) (place : Placement) :
    (payload.validate = .ok () →
      ∃ id added left, r.add s.supply payload .top = .ok (id, added, left) ∧
        (¬ place.Names none id →
          ((∃ result, r.add later payload place = .ok result) ↔
            ∃ moved, added.relocate id place = .ok moved) ∧
          (∀ e, r.add later payload place = .error e ↔ added.relocate id place = .error e) ∧
          ∀ id' placed left' moved, r.add later payload place = .ok (id', placed, left') →
            added.relocate id place = .ok moved → moved.SameUpTo id placed id')) ∧
    ∀ id' placed left', r.add later payload place = .ok (id', placed, left') →
      placed.delete id' = .ok r := by
  have hsound := h.sound hr
  have wf := hsound.wellFormed
  have hnew : r.contains ⟨s.supply.nextId⟩ = false := hsound.not_contains_mint (.refl _)
  have hnew' := hsound.not_contains_mint hlater
  refine ⟨fun hpayload => ?_, fun id' placed left' => Revision.delete_of_add wf hnew'⟩
  have hadd : r.add s.supply payload .top = .ok (⟨s.supply.nextId⟩,
      ⟨r.table.insert ⟨s.supply.nextId⟩ ⟨s.supply.nextStamp, payload.normalize⟩ none none, true⟩,
      ⟨s.supply.nextId + 1, s.supply.nextStamp + 1⟩) :=
    Revision.add_eq htransient hpayload s.supply .top
  refine ⟨_, _, _, hadd, fun hplace => ?_⟩
  rw [Revision.add_eq htransient hpayload later place, Revision.relocate_insert wf hnew hplace]
  cases hcheck : place.check r.table none with
  | error reason => simp [Except.map]
  | ok _ =>
      refine ⟨by simp [Except.map], by simp [Except.map], ?_⟩
      intro id' placed left' moved hplaced hmoved
      cases hplaced
      cases hmoved
      exact Revision.sameUpTo_insert wf hnew hnew' hcheck _ _ _

theorem additions_nested :
    ∃ r added left moved placed left', nested.revision? "a" = some r ∧ r.transient = true ∧
      left.Remains nested.supply ∧ (Payload.text {}).validate = .ok () ∧
        r.add nested.supply (.text {}) .top = .ok (⟨5⟩, added, left) ∧
          ¬ Placement.Names none ⟨some ⟨1⟩, some ⟨2⟩⟩ ⟨5⟩ ∧
            r.add left (.text {}) ⟨some ⟨1⟩, some ⟨2⟩⟩ = .ok (⟨6⟩, placed, left') ∧
              added.relocate ⟨5⟩ ⟨some ⟨1⟩, some ⟨2⟩⟩ = .ok moved ∧
                moved.SameUpTo ⟨5⟩ placed ⟨6⟩ ∧ placed.delete ⟨6⟩ = .ok r := by
  have hr : nested.revision? "a" = some _ := rfl
  have hlater : Supply.Remains ⟨6, 6⟩ nested.supply := ⟨by decide, by decide⟩
  have hnames : ¬ Placement.Names none ⟨some ⟨1⟩, some ⟨2⟩⟩ ⟨5⟩ := by simp [Placement.Names]
  obtain ⟨hadds, hdelete⟩ := reachable_nested.additions hr rfl hlater (.text {})
    ⟨some ⟨1⟩, some ⟨2⟩⟩
  obtain ⟨id, added, left, hadd, hplace⟩ := hadds rfl
  cases hadd
  obtain ⟨-, -, hsame⟩ := hplace hnames
  exact ⟨_, _, _, _, _, _, hr, rfl, hlater, rfl, rfl, hnames, rfl, rfl, hsame _ _ _ _ rfl rfl,
    hdelete _ _ _ rfl⟩

end Schematic.Session
