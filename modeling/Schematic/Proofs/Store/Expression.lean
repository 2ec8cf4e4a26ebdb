import Schematic.Proofs.Store.SelectedCopy

namespace Schematic

namespace Selection

variable {s : Selection} {x : ObjectId} {r : Revision}

/-! ### Selections of a revision -/

/-- The objects in the list of a parent are those that have it as their parent. -/
theorem contains_attachedTo (wf : r.table.WellFormed) (parent : Option ObjectId) :
    (attachedTo r parent).contains x = (r.table.place? x == some parent) := by
  rw [Bool.eq_iff_iff]
  simp [attachedTo, Revision.attachedTo, wf.mem_siblings]

theorem contains_all (wf : r.table.WellFormed) : (all r).contains x = r.contains x := by
  rw [Bool.eq_iff_iff]
  simp [all, Revision.objects, wf.mem_preorder, Revision.contains]

theorem contains_allExcept (wf : r.table.WellFormed) :
    (allExcept r s).contains x = (r.contains x && !s.contains x) := by
  rw [Bool.eq_iff_iff]
  simp [allExcept, Revision.objects, wf.mem_preorder, Revision.contains]

/-! ### Expressions -/

inductive Expression
  | none
  | object (id : ObjectId)
  | ofList (ids : List ObjectId)
  | including (e : Expression) (id : ObjectId)
  | excluding (e : Expression) (id : ObjectId)
  | union (e f : Expression)
  | intersection (e f : Expression)
  | difference (e f : Expression)
  | attachedTo (r : Revision) (parent : Option ObjectId)
  | all (r : Revision)
  | allExcept (r : Revision) (e : Expression)

namespace Expression

def eval : Expression → Selection
  | none => .none
  | object id => .object id
  | ofList ids => .ofList ids
  | including e id => e.eval.including id
  | excluding e id => e.eval.excluding id
  | union e f => e.eval.union f.eval
  | intersection e f => e.eval.intersection f.eval
  | difference e f => e.eval.difference f.eval
  | attachedTo r parent => .attachedTo r parent
  | all r => .all r
  | allExcept r e => .allExcept r e.eval

/-- Whether an object is meant by an expression. What is attached to a parent is told here by the
entries of a revision, and not by its lists. -/
def holds : Expression → ObjectId → Bool
  | none, _ => false
  | object id, x => x == id
  | ofList ids, x => ids.contains x
  | including e id, x => e.holds x || x == id
  | excluding e id, x => e.holds x && x != id
  | union e f, x => e.holds x || f.holds x
  | intersection e f, x => e.holds x && f.holds x
  | difference e f, x => e.holds x && !f.holds x
  | attachedTo r parent, x => r.table.place? x == some parent
  | all r, x => r.contains x
  | allExcept r e, x => r.contains x && !e.holds x

def revisions : Expression → List Revision
  | none | object _ | ofList _ => []
  | including e _ | excluding e _ => e.revisions
  | union e f | intersection e f | difference e f => e.revisions ++ f.revisions
  | attachedTo r _ | all r => [r]
  | allExcept r e => r :: e.revisions

theorem contains_eval {e : Expression} (wf : ∀ r ∈ e.revisions, r.table.WellFormed)
    (x : ObjectId) : e.eval.contains x = e.holds x := by
  induction e with
  | none => simp [eval, holds]
  | object id | ofList ids =>
      rw [Bool.eq_iff_iff]
      simp [eval, holds]
  | including e id ih | excluding e id ih => simp [eval, holds, ih wf]
  | union e f ihe ihf | intersection e f ihe ihf | difference e f ihe ihf =>
      obtain ⟨hwfe, hwff⟩ := List.forall_mem_append.mp wf
      simp [eval, holds, ihe hwfe, ihf hwff]
  | attachedTo r parent =>
      rw [eval, holds, contains_attachedTo (wf r List.mem_cons_self)]
  | all r => rw [eval, holds, contains_all (wf r List.mem_cons_self)]
  | allExcept r e ih =>
      obtain ⟨hwf, hwfe⟩ := List.forall_mem_cons.mp wf
      rw [eval, holds, contains_allExcept hwf, ih hwfe]

theorem represents_eval {e : Expression} (wf : ∀ r ∈ e.revisions, r.table.WellFormed) :
    e.eval.Represents e.holds := by
  rw [← funext (contains_eval wf)]
  exact e.eval.represents_contains

end Expression

end Selection

namespace Revision

/-- What is selected of a revision is found in the order of all its objects, and the operations on
selections do with it what they do with their members. -/
structure SelectionLaws (r : Revision) : Prop where
  allExcept_eq : ∀ sel : Selection,
    (Selection.allExcept r sel).eq ((Selection.all r).difference sel) = true
  selected_sublist : ∀ sel : Selection, (r.selected sel).Sublist r.objects
  partition_objects : ∀ sel : Selection,
    r.objects.partition sel.contains = (r.selected sel, r.selected (.allExcept r sel))
  perm_objects : ∀ sel : Selection,
    (r.selected sel ++ r.selected (.allExcept r sel)).Perm r.objects
  disjoint_selected : ∀ sel : Selection,
    (r.selected sel).Disjoint (r.selected (.allExcept r sel))
  selected_union : ∀ sel sel' : Selection, r.selected (sel.union sel') =
    r.objects.filter fun x => sel.contains x || sel'.contains x
  selected_intersection : ∀ sel sel' : Selection, r.selected (sel.intersection sel') =
    r.objects.filter fun x => sel.contains x && sel'.contains x
  selected_difference : ∀ sel sel' : Selection, r.selected (sel.difference sel') =
    r.objects.filter fun x => sel.contains x && !sel'.contains x

variable {r : Revision}

theorem selected_allExcept (wf : r.table.WellFormed) (sel : Selection) :
    r.selected (.allExcept r sel) = r.objects.filter (!sel.contains ·) := by
  refine List.filter_congr fun x hx => ?_
  have hcontains : r.contains x = true := wf.mem_preorder.mp hx
  rw [Selection.contains_allExcept wf, hcontains, Bool.true_and]

theorem selectionLaws (wf : r.table.WellFormed) : r.SelectionLaws where
  allExcept_eq sel := by
    refine Selection.eq_iff.mpr (Selection.ext fun x => ?_)
    simp [Selection.contains_allExcept wf, Selection.contains_all wf]
  selected_sublist _ := List.filter_sublist
  partition_objects sel := by
    rw [List.partition_eq_filter_filter, selected_allExcept wf]
    rfl
  perm_objects sel := by
    rw [selected_allExcept wf]
    exact List.filter_append_perm sel.contains r.objects
  disjoint_selected sel := by
    intro x hx hx'
    rw [selected_allExcept wf, List.mem_filter] at hx'
    simp [(List.mem_filter.mp hx).2] at hx'
  selected_union _ _ := List.filter_congr fun _ _ => Selection.contains_union
  selected_intersection _ _ := List.filter_congr fun _ _ => Selection.contains_intersection
  selected_difference _ _ := List.filter_congr fun _ _ => Selection.contains_difference

end Revision

end Schematic
