import Schematic.Proofs.Store.Legality
import Schematic.Proofs.Store.Refusal
import Schematic.Proofs.Store.SelectedCopy
import Schematic.Attribute.Bulk

namespace Schematic

namespace Placement

/-- A placement of an object, or of a new one for `none`, names another object or this one. -/
def Names (object : Option ObjectId) (place : Placement) (id : ObjectId) : Prop :=
  object = some id ∨ place.parent = some id ∨ place.before = some id

variable {t : Table} {object : Option ObjectId} {place : Placement} {id : ObjectId}

theorem Present.contains_of_names (h : place.Present t object) (hid : place.Names object id) :
    t.contains id = true := by
  rcases hid with hid | hid | hid
  · exact h.object id hid
  · exact h.parent id hid
  · exact h.before id hid

theorem exists_check_eq_error (wf : t.WellFormed) (hid : place.Names object id)
    (habsent : t.contains id = false) :
    ∃ e x, place.check t object = .error e ∧ place.Names object x ∧ t.contains x = false ∧
      (e = .noSuchObject x ∨ e = .noSuchParent x) := by
  have hnot : ¬ place.Present t object := by
    intro hpresent
    rw [hpresent.contains_of_names hid] at habsent
    cases habsent
  cases hcheck : place.check t object with
  | ok u => exact absurd ((check_eq_ok_iff_admissible wf).mp hcheck).present hnot
  | error e =>
      cases (check_eq_error_iff_firstFault wf).mp hcheck with
      | absentObject hx hx' => exact ⟨_, _, rfl, .inl hx, hx', .inl rfl⟩
      | absentParent _ hx hx' => exact ⟨_, _, rfl, .inr (.inl hx), hx', .inr rfl⟩
      | absentSuccessor _ _ hx hx' => exact ⟨_, _, rfl, .inr (.inr hx), hx', .inl rfl⟩
      | wrongParent hpresent => exact absurd hpresent hnot
      | wrongSuccessor hpresent => exact absurd hpresent hnot

end Placement

namespace Revision

variable {r : Revision} {id : ObjectId} {updates : List (ObjectId × Payload)}

/-! ### Reading -/

theorem location_eq_error_of_absent (habsent : r.contains id = false) :
    r.location id = .error (.noSuchObject id) := by
  have hnone : r.table.get? id = none :=
    Option.isNone_iff_eq_none.mp (Option.isSome_eq_false_iff.mp habsent)
  rw [location, location?, hnone]
  rfl

theorem not_mem_attachedTo_of_absent (wf : r.table.WellFormed) (habsent : r.contains id = false)
    (place : Option ObjectId) : id ∉ r.attachedTo place := by
  intro hmem
  rw [contains, wf.contains_of_mem_siblings hmem] at habsent
  cases habsent

theorem attachedTo_eq_nil_of_absent (wf : r.table.WellFormed) (habsent : r.contains id = false) :
    r.attachedTo (some id) = [] := by
  refine List.eq_nil_iff_forall_not_mem.mpr fun child hchild => ?_
  rw [contains, wf.contains_parent (wf.mem_siblings.mp hchild)] at habsent
  cases habsent

/-! ### Updates -/

theorem firstFault_append_of_left {e : StoreError} (h : r.FirstFault updates e)
    (later : List (ObjectId × Payload)) : r.FirstFault (updates ++ later) e := by
  obtain ⟨front, update, back, rfl, hfront, hfault⟩ := h
  exact ⟨front, update, back ++ later, by simp, hfront, hfault⟩

theorem exists_firstFault_or (r : Revision) (updates : List (ObjectId × Payload)) :
    (∃ e, r.FirstFault updates e) ∨ ∀ update ∈ updates, ∀ e, ¬ r.UpdateFault update e := by
  induction updates with
  | nil => exact .inr (List.forall_mem_nil _)
  | cons update updates ih =>
      by_cases hupdate : ∃ e, r.UpdateFault update e
      · obtain ⟨e, hfault⟩ := hupdate
        exact .inl ⟨e, [], update, updates, rfl, List.forall_mem_nil _, hfault⟩
      · have hnone : ∀ e, ¬ r.UpdateFault update e := not_exists.mp hupdate
        rcases ih with ⟨e, front, other, back, rfl, hfront, hfault⟩ | hrest
        · exact .inl ⟨e, update :: front, other, back, rfl,
            List.forall_mem_cons.mpr ⟨hnone, hfront⟩, hfault⟩
        · exact .inr (List.forall_mem_cons.mpr ⟨hnone, hrest⟩)

theorem not_firstFault_of_forall (h : ∀ update ∈ updates, ∀ e, ¬ r.UpdateFault update e)
    (e : StoreError) : ¬ r.FirstFault updates e := by
  rintro ⟨front, update, back, rfl, -, hfault⟩
  exact h update (by simp) e hfault

/-- Updates of which one is for an absent object are refused for that, unless something is wrong
with an earlier one. -/
theorem firstFault_of_absent (habsent : r.contains id = false)
    (front : List (ObjectId × Payload)) (payload : Payload) (back : List (ObjectId × Payload)) :
    (∃ e, r.FirstFault front e ∧ r.FirstFault (front ++ (id, payload) :: back) e) ∨
      (∀ e, ¬ r.FirstFault front e) ∧
        r.FirstFault (front ++ (id, payload) :: back) (.noSuchObject id) := by
  rcases exists_firstFault_or r front with ⟨e, hfirst⟩ | hfront
  · exact .inl ⟨e, hfirst, firstFault_append_of_left hfirst _⟩
  · exact .inr ⟨not_firstFault_of_forall hfront, front, _, back, rfl, hfront, .absent habsent⟩

/-! ### Selections -/

variable (sel : Selection)

theorem selected_excluding (wf : r.table.WellFormed) (habsent : r.contains id = false) :
    r.selected (sel.excluding id) = r.selected sel := by
  refine List.filter_congr fun x hx => Selection.contains_excluding_of_ne ?_
  rintro rfl
  rw [contains, wf.mem_preorder.mp hx] at habsent
  cases habsent

theorem selectedRoots_excluding (wf : r.table.WellFormed) (habsent : r.contains id = false) :
    r.selectedRoots (sel.excluding id) = r.selectedRoots sel := by
  rw [selectedRoots, selectedRoots, selected_excluding sel wf habsent]
  refine List.filter_congr fun x hx => congrArg not ?_
  have hx := ((mem_selected_iff wf).mp hx).1
  rw [Bool.eq_iff_iff, hasSelectedAncestor_iff wf, hasSelectedAncestor_iff wf]
  refine exists_congr fun a => and_congr_right fun hwithin => and_congr_right fun _ => ?_
  rw [Selection.contains_excluding_of_ne]
  rintro rfl
  rw [contains, wf.contains_of_within hwithin hx] at habsent
  cases habsent

theorem deleteSelected_excluding (wf : r.table.WellFormed) (habsent : r.contains id = false) :
    r.deleteSelected (sel.excluding id) = r.deleteSelected sel := by
  rw [deleteSelected, selected_excluding sel wf habsent, deleteSelected]

theorem apply_excluding (wf : r.table.WellFormed) (habsent : r.contains id = false)
    (supply : Supply) (change : Change) :
    r.apply supply (sel.excluding id) change = r.apply supply sel change := by
  rw [apply, updates, selected_excluding sel wf habsent, apply, updates]

/-- It is the revision copied from that matters. -/
theorem copySelected_excluding (wf : r.table.WellFormed) (habsent : r.contains id = false)
    (target : Revision) (supply : Supply) :
    target.copySelected supply r (sel.excluding id) = target.copySelected supply r sel := by
  rw [copySelected, selectedRoots_excluding sel wf habsent, copySelected]

end Revision

end Schematic
