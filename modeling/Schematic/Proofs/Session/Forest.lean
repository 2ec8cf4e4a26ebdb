import Schematic.Proofs.Session.Reachable
import Schematic.Proofs.Store.Block
import Schematic.Proofs.Store.Walk

namespace Schematic

/-- The objects of a revision form a forest of components and what is attached to them, and all that
the revision says of their places agrees. -/
structure Revision.IsForest (r : Revision) : Prop where
  kind?_parent : ∀ {id p : ObjectId}, r.table.parent? id = some p → r.kind? p = some .component
  grounded : ∀ {id : ObjectId}, r.contains id = true → ∃ n, r.table.AtDepth n id
  count_attachedTo : ∀ {id : ObjectId} {entry : Entry}, r.table.get? id = some entry →
    ∀ place, (r.attachedTo place).count id = if place = entry.parent then 1 else 0
  contains_of_mem_attachedTo : ∀ {id : ObjectId} {place : Option ObjectId},
    id ∈ r.attachedTo place → r.contains id = true
  nodup_objects : r.objects.Nodup
  objects_perm : r.objects.Perm r.table.ids
  length_objects : r.objects.length = r.size
  idxOf_lt : ∀ {a id : ObjectId}, r.contains a = true → r.table.Within a id → a ≠ id →
    r.objects.idxOf a < r.objects.idxOf id
  location_eq_ok : ∀ {id : ObjectId}, id ∈ r.objects →
    ∃ place index, r.location id = .ok (place, index) ∧ (r.attachedTo place)[index]? = some id

theorem Revision.isForest_of_wellFormed {r : Revision} (wf : r.table.WellFormed) :
    r.IsForest where
  kind?_parent := by
    intro id p hp
    have hcontainer := wf.isContainer (Table.parent?_eq_some_iff.mp hp)
    unfold Table.isContainer at hcontainer
    unfold Revision.kind? Revision.payload? Revision.state?
    cases hentry : r.table.get? p with
    | none => simp [hentry] at hcontainer
    | some entry =>
        rw [hentry, Option.any_some] at hcontainer
        simpa [Entry.kind, ObjectState.kind, ObjectKind.isContainer] using hcontainer
  grounded := wf.grounded
  count_attachedTo := by
    intro id entry hentry place
    have hmem : id ∈ r.attachedTo place ↔ place = entry.parent := by
      rw [Revision.attachedTo, wf.mem_siblings, Table.place?_of_get? hentry, Option.some.injEq,
        eq_comm]
    have hcount : (r.attachedTo place).count id = if id ∈ r.attachedTo place then 1 else 0 :=
      (wf.nodup_siblings place).count
    rw [hcount]
    exact if_congr hmem rfl rfl
  contains_of_mem_attachedTo := wf.contains_of_mem_siblings
  nodup_objects := wf.nodup_preorder
  objects_perm := wf.preorder_perm_ids
  length_objects := wf.length_preorder
  idxOf_lt ha hwithin hne := wf.idxOf_lt_of_within hwithin hne ha
  location_eq_ok := by
    intro id hid
    obtain ⟨place, index, hlocation⟩ := wf.exists_location?_eq_some (wf.mem_preorder.mp hid)
    refine ⟨place, index, ?_, (wf.location?_eq_some_iff.mp hlocation).2⟩
    rw [Revision.location, hlocation]

namespace Session

theorem Reachable.isForest {s : Session} (h : s.Reachable) {name : String} {r : Revision}
    (hr : s.revision? name = some r) : r.IsForest :=
  Revision.isForest_of_wellFormed (h.sound hr).wellFormed

theorem isForest_nested :
    ∃ r, nested.revision? "a" = some r ∧ r.objects = [⟨0⟩, ⟨1⟩, ⟨2⟩, ⟨3⟩, ⟨4⟩] ∧ r.IsForest :=
  ⟨_, rfl, rfl, reachable_nested.isForest (show nested.revision? "a" = some _ from rfl)⟩

/-- Up the parents, down the lists and along the order of all objects one finds the same objects
below an object of the revision. -/
theorem Reachable.descentAgrees {s : Session} (h : s.Reachable) {name : String} {r : Revision}
    (hr : s.revision? name = some r) : r.DescentAgrees :=
  Revision.descentAgrees_of_wellFormed (h.sound hr).wellFormed

theorem descentAgrees_nested :
    ∃ r, nested.revision? "a" = some r ∧ r.table.block ⟨0⟩ = [⟨0⟩, ⟨1⟩, ⟨2⟩, ⟨3⟩] ∧
      Revision.hasSelectedAncestor r.table (.ofList [⟨1⟩]) ⟨2⟩ = true ∧
        Revision.hasSelectedAncestor r.table (.ofList [⟨1⟩]) ⟨3⟩ = false ∧ r.DescentAgrees :=
  ⟨_, rfl, rfl, rfl, rfl,
    reachable_nested.descentAgrees (show nested.revision? "a" = some _ from rfl)⟩

/-- Walks end in the table of a revision that can be reached, and in the tables that come up while
selected objects are deleted from it one after the other. -/
theorem Reachable.walksEnd {s : Session} (h : s.Reachable) {name : String} {r : Revision}
    (hr : s.revision? name = some r) :
    r.table.WalksEnd ∧
      ∀ (sel : Selection) (done rest : List ObjectId), r.selected sel = done ++ rest →
        (done.foldl Table.removeSubtree r.table).WalksEnd := by
  have wf := (h.sound hr).wellFormed
  exact ⟨Table.walksEnd_of_wellFormed wf, fun _ done _ _ =>
    Table.walksEnd_of_wellFormed (wf.foldl_removeSubtree done)⟩

theorem walksEnd_nested :
    ∃ r, nested.revision? "a" = some r ∧ r.table.size = 5 ∧ r.table.WalksEnd ∧
      (∃ rounds ≤ 6, r.table.Search (⟨4⟩ == ·) (some ⟨2⟩) rounds false) ∧
      (∃ depth ≤ 5, r.table.Collects depth [⟨0⟩] [] [⟨0⟩, ⟨1⟩, ⟨2⟩, ⟨3⟩]) ∧
      r.selected (.ofList [⟨4⟩, ⟨1⟩]) = [⟨1⟩] ++ [⟨4⟩] ∧
      (r.table.removeSubtree ⟨1⟩).WalksEnd := by
  have hr : nested.revision? "a" = some _ := rfl
  obtain ⟨hends, hbetween⟩ := reachable_nested.walksEnd hr
  obtain ⟨rounds, hrounds, hsearch⟩ := hends.isAncestorOrSelf_iff ⟨4⟩ ⟨2⟩
  obtain ⟨depth, hdepth, hcollects⟩ := hends.subtree_iff ⟨0⟩ rfl
  exact ⟨_, hr, rfl, hends, ⟨rounds, hrounds, (hsearch _ _).mpr ⟨rfl, rfl⟩⟩,
    ⟨depth, hdepth, (hcollects _ _ _).mpr ⟨rfl, rfl⟩⟩, rfl,
    hbetween (.ofList [⟨4⟩, ⟨1⟩]) [⟨1⟩] [⟨4⟩] rfl⟩

end Session

end Schematic
