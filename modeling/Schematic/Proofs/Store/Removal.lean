import Schematic.Proofs.Store.SelectedCopy

namespace Schematic

namespace Table

/-- What is left of a table without the objects that are gone: the entries of the others, and the
lists with the others in the same order. -/
structure IsPruned (t : Table) (gone : ObjectId → Bool) (u : Table) : Prop where
  get?_eq : ∀ id, u.get? id = if gone id then none else t.get? id
  siblings_eq : ∀ place, u.siblings place = (t.siblings place).filter (!gone ·)

variable {t u v : Table} {gone more : ObjectId → Bool} {a id x other : ObjectId}
  {place : Option ObjectId}

theorem countP_not_add_countP (p : ObjectId → Bool) (list : List ObjectId) :
    list.countP (!p ·) + list.countP p = list.length := by
  rw [Nat.add_comm, eq_comm]
  simpa using list.length_eq_countP_add_countP p

namespace IsPruned

theorem trans (h : t.IsPruned gone u) (h' : u.IsPruned more v) :
    t.IsPruned (fun x => gone x || more x) v where
  get?_eq id := by
    rw [h'.get?_eq, h.get?_eq]
    cases gone id <;> cases more id <;> rfl
  siblings_eq place := by
    rw [h'.siblings_eq, h.siblings_eq, List.filter_filter]
    refine List.filter_congr fun x _ => ?_
    rw [Bool.not_or, Bool.and_comm]

theorem congr (h : t.IsPruned gone u) (wf : t.WellFormed)
    (hgone : ∀ id, t.contains id = true → gone id = more id) : t.IsPruned more u where
  get?_eq id := by
    rw [h.get?_eq]
    cases hid : t.get? id with
    | none => rw [ite_self, ite_self]
    | some entry => rw [hgone id (Option.isSome_iff_exists.mpr ⟨entry, hid⟩)]
  siblings_eq place := by
    rw [h.siblings_eq]
    refine List.filter_congr fun x hx => ?_
    rw [hgone x (wf.contains_of_mem_siblings hx)]

theorem unique (h : t.IsPruned gone u) (h' : t.IsPruned gone v) (wf : u.WellFormed)
    (wf' : v.WellFormed) : u = v :=
  wf.ext wf' (fun id => (h.get?_eq id).trans (h'.get?_eq id).symm)
    fun place => (h.siblings_eq place).trans (h'.siblings_eq place).symm

theorem contains_iff (h : t.IsPruned gone u) :
    u.contains id = true ↔ t.contains id = true ∧ gone id = false := by
  rw [contains, contains, h.get?_eq]
  cases gone id <;> simp

theorem place?_eq (h : t.IsPruned gone u) :
    u.place? id = if gone id then none else t.place? id := by
  rw [place?, h.get?_eq, place?]
  split <;> rfl

theorem place?_of_place? (h : t.IsPruned gone u) (hplace : u.place? id = some place) :
    t.place? id = some place := by
  rw [h.place?_eq] at hplace
  split at hplace
  · cases hplace
  · exact hplace

variable (h : t.IsPruned gone u) (hdown : t.HidesBelow (!gone ·))

include h hdown

theorem hidesBelow : u.HidesBelow (!gone ·) := by
  intro x y hwithin hx
  induction hwithin with
  | self => exact hx
  | attached hplace _ ih => exact hdown _ _ (.of_place? (h.place?_of_place? hplace)) ih

theorem within_iff (hx : gone x = false) : u.Within a x ↔ t.Within a x := by
  constructor
  · intro hwithin
    clear hx
    induction hwithin with
    | self => exact .self
    | attached hplace _ ih => exact .attached (h.place?_of_place? hplace) ih
  · intro hwithin
    induction hwithin with
    | self => exact .self
    | attached hplace _ ih =>
        -- What the object is attached to stays as well, since it would take the object with it.
        have hparent := mt (hdown _ _ (.of_place? hplace)) (by simp [hx])
        refine .attached ?_ (ih (by simpa using hparent))
        rw [h.place?_eq, hx, if_neg Bool.false_ne_true, hplace]

variable (wf : t.WellFormed) (wf' : u.WellFormed)

include wf wf'

theorem mem_subtree_iff : x ∈ u.subtree other ↔ x ∈ t.subtree other ∧ gone x = false := by
  constructor
  · intro hmem
    have hother := contains_root_of_mem_subtree hmem
    have hx := (h.contains_iff.mp (wf'.contains_of_mem_subtree hmem)).2
    have hwithin := (h.within_iff hdown hx).mp ((wf'.mem_subtree hother).mp hmem)
    exact ⟨(wf.mem_subtree (h.contains_iff.mp hother).1).mpr hwithin, hx⟩
  · rintro ⟨hmem, hx⟩
    have hother := contains_root_of_mem_subtree hmem
    have hwithin := (wf.mem_subtree hother).mp hmem
    have hkept : gone other = false := by
      simpa using mt (hdown _ _ hwithin) (by simp [hx])
    exact (wf'.mem_subtree (h.contains_iff.mpr ⟨hother, hkept⟩)).mpr
      ((h.within_iff hdown hx).mpr hwithin)

theorem preorder_eq : u.preorder = t.preorder.filter (!gone ·) := by
  have hself : u.preorder.filter (!gone ·) = u.preorder := by
    refine List.filter_eq_self.mpr fun x hx => ?_
    rw [(h.contains_iff.mp (wf'.mem_preorder.mp hx)).2, Bool.not_false]
  rw [← hself]
  refine (wf.filter_preorder_congr wf' hdown (h.hidesBelow hdown) fun place _ => ?_).symm
  rw [h.siblings_eq, List.filter_filter]
  exact List.filter_congr fun x _ => (Bool.and_self _).symm

theorem size_eq : u.size + t.preorder.countP gone = t.size := by
  rw [← wf'.length_preorder, h.preorder_eq hdown wf wf', ← List.countP_eq_length_filter,
    countP_not_add_countP, wf.length_preorder]

end IsPruned

theorem WellFormed.isPruned_removeSubtree (wf : t.WellFormed) (id : ObjectId) :
    t.IsPruned (t.subtree id).elem (t.removeSubtree id) where
  get?_eq x := by simp only [get?_removeSubtree, List.elem_eq_mem, decide_eq_true_eq]
  siblings_eq place := by
    rw [wf.siblings_removeSubtree]
    split
    · rename_i hplace
      obtain ⟨p, hp, rfl⟩ := List.mem_map.mp hplace
      refine (List.filter_eq_nil_iff.mpr fun x hx => ?_).symm
      have hgone := wf.mem_subtree_of_within (.of_place? (wf.mem_siblings.mp hx)) hp
      simp [hgone]
    · rename_i hplace
      refine List.filter_congr fun x hx => ?_
      have hx := wf.mem_siblings.mp hx
      rw [bne, Bool.not_inj_iff, Bool.eq_iff_iff, beq_iff_eq, List.elem_eq_mem, decide_eq_true_iff]
      constructor
      · rintro rfl
        exact wf.mem_subtree_self (contains_of_place? hx)
      · intro hmem
        have hwithin := (wf.mem_subtree (contains_root_of_mem_subtree hmem)).mp hmem
        by_contra hne
        cases place with
        | none => exact hne (hwithin.eq_of_top hx).symm
        | some p =>
            have hp := (wf.mem_subtree (contains_root_of_mem_subtree hmem)).mpr
              (hwithin.parent (Ne.symm hne) hx)
            exact hplace (List.mem_map_of_mem hp)

theorem WellFormed.foldl_removeSubtree (wf : t.WellFormed) (ids : List ObjectId) :
    (ids.foldl Table.removeSubtree t).WellFormed := by
  induction ids generalizing t with
  | nil => exact wf
  | cons id ids ih => exact ih (wf.removeSubtree id)

/-- Removing subtrees one after the other removes what they hold at first. -/
theorem WellFormed.isPruned_foldl_removeSubtree (wf : t.WellFormed) (ids : List ObjectId) :
    t.IsPruned (ids.flatMap t.subtree).elem (ids.foldl Table.removeSubtree t) := by
  induction ids generalizing t with
  | nil => exact ⟨fun _ => rfl, fun _ => (List.filter_eq_self.mpr fun _ _ => rfl).symm⟩
  | cons id ids ih =>
      have hfirst := wf.isPruned_removeSubtree id
      have wf' := wf.removeSubtree id
      refine (hfirst.trans (ih wf')).congr wf fun x _ => ?_
      have hmem : ∀ y, x ∈ (t.removeSubtree id).subtree y ↔
          x ∈ t.subtree y ∧ (t.subtree id).elem x = false := fun y =>
        hfirst.mem_subtree_iff (wf.hidesBelow_subtree id) wf wf'
      simp only [List.elem_eq_mem] at hmem ⊢
      rw [← Bool.decide_or, decide_eq_decide, List.flatMap_cons, List.mem_append]
      simp only [List.mem_flatMap, hmem, decide_eq_false_iff_not]
      constructor
      · rintro (hx | ⟨y, hy, hx, -⟩)
        · exact .inl hx
        · exact .inr ⟨y, hy, hx⟩
      · rintro (hx | ⟨y, hy, hx⟩)
        · exact .inl hx
        · exact or_iff_not_imp_left.mpr fun hstays => ⟨y, hy, hx, hstays⟩

end Table

namespace Revision

/-- Whether an object is selected or lies below a selected one. -/
def covers (r : Revision) (sel : Selection) (id : ObjectId) : Bool :=
  sel.contains id || hasSelectedAncestor r.table sel id

/-- Delete objects one after the other, and pass over those that have gone with others. -/
def deleteEach (r : Revision) : List ObjectId → Except StoreError Revision
  | [] => .ok r
  | id :: ids =>
      if r.contains id then do
        let next ← r.delete id
        next.deleteEach ids
      else r.deleteEach ids

structure Pruned (r : Revision) (sel : Selection) (next : Revision) : Prop where
  covers_iff : ∀ id, r.covers sel id = true ↔ r.table.Covered sel id
  objects_eq : next.objects = r.objects.filter (!r.covers sel ·)
  state?_eq : ∀ id, r.covers sel id = false → next.state? id = r.state? id
  exists_location? : ∀ id, r.contains id = true → r.covers sel id = false →
    ∃ place index index', r.location? id = some (place, index) ∧
      next.location? id = some (place, index') ∧
        index' + ((r.attachedTo place).take index).countP (r.covers sel) = index
  size_eq : next.size + r.objects.countP (r.covers sel) = r.size
  transient_eq : next.transient = r.transient

variable {r next : Revision} {sel sel' : Selection} {id : ObjectId}

/-! ### What a selection covers -/

theorem covers_iff (wf : r.table.WellFormed) :
    r.covers sel id = true ↔ r.table.Covered sel id := by
  rw [covers, Bool.or_eq_true, hasSelectedAncestor_iff wf]
  constructor
  · rintro (hsel | ⟨a, hwithin, -, hsel⟩)
    · exact ⟨id, .self, hsel⟩
    · exact ⟨a, hwithin, hsel⟩
  · rintro ⟨a, hwithin, hsel⟩
    by_cases hne : a = id
    · exact .inl (hne ▸ hsel)
    · exact .inr ⟨a, hwithin, hne, hsel⟩

theorem hidesBelow_covers (wf : r.table.WellFormed) (sel : Selection) :
    r.table.HidesBelow (!r.covers sel ·) := by
  intro x y h hx
  rw [Bool.not_eq_false', covers_iff wf] at hx ⊢
  obtain ⟨a, hwithin, hsel⟩ := hx
  exact ⟨a, hwithin.trans h, hsel⟩

theorem mem_flatMap_selected_iff (wf : r.table.WellFormed) :
    id ∈ (r.selected sel).flatMap r.table.subtree ↔
      r.contains id = true ∧ r.covers sel id = true := by
  rw [List.mem_flatMap, covers_iff wf]
  constructor
  · rintro ⟨a, ha, hid⟩
    obtain ⟨hcontains, hsel⟩ := (mem_selected_iff wf).mp ha
    exact ⟨wf.contains_of_mem_subtree hid, a, (wf.mem_subtree hcontains).mp hid, hsel⟩
  · rintro ⟨hid, a, hwithin, hsel⟩
    have hcontains := wf.contains_of_within hwithin hid
    exact ⟨a, (mem_selected_iff wf).mpr ⟨hcontains, hsel⟩, (wf.mem_subtree hcontains).mpr hwithin⟩

/-! ### Deletion as pruning -/

theorem exists_deleteSelected_eq_ok (htransient : r.transient = true) (sel : Selection) :
    ∃ next, r.deleteSelected sel = .ok next :=
  ⟨_, deleteSelected_eq_ok_iff.mpr ⟨htransient, rfl⟩⟩

/-- Deletion gives the one revision that is left without what the selection covers. -/
theorem deleteSelected_eq_ok_iff_isPruned (wf : r.table.WellFormed) :
    r.deleteSelected sel = .ok next ↔ r.transient = true ∧ next.table.WellFormed ∧
      next.transient = r.transient ∧ r.table.IsPruned (r.covers sel) next.table := by
  have hpruned : r.table.IsPruned (r.covers sel)
      ((r.selected sel).foldl Table.removeSubtree r.table) := by
    refine (wf.isPruned_foldl_removeSubtree (r.selected sel)).congr wf fun id hid => ?_
    rw [Bool.eq_iff_iff, List.elem_eq_mem, decide_eq_true_iff, mem_flatMap_selected_iff wf]
    exact and_iff_right hid
  have wf' := wf.foldl_removeSubtree (r.selected sel)
  rw [deleteSelected_eq_ok_iff]
  refine and_congr_right fun _ => ⟨?_, ?_⟩
  · rintro rfl
    exact ⟨wf', rfl, hpruned⟩
  · rintro ⟨hnext, htransient, h⟩
    obtain ⟨table, transient⟩ := next
    obtain rfl : table = _ := h.unique hpruned hnext wf'
    rw [← htransient]

theorem deleteSelected_congr (wf : r.table.WellFormed)
    (h : ∀ id, r.contains id = true → sel.contains id = sel'.contains id) :
    r.deleteSelected sel = r.deleteSelected sel' := by
  have hselected : r.selected sel = r.selected sel' :=
    List.filter_congr fun id hid => h id (wf.mem_preorder.mp hid)
  rw [deleteSelected, deleteSelected, hselected]

theorem covers_union (wf : r.table.WellFormed) :
    r.covers (sel.union sel') id = (r.covers sel id || r.covers sel' id) := by
  rw [Bool.eq_iff_iff, Bool.or_eq_true, covers_iff wf, covers_iff wf, covers_iff wf]
  simp [Table.Covered, and_or_left, exists_or]

theorem covers_of_isPruned (h : r.table.IsPruned (r.covers sel) next.table)
    (wf : r.table.WellFormed) (wf' : next.table.WellFormed) (hid : r.covers sel id = false) :
    next.covers sel' id = r.covers sel' id := by
  rw [Bool.eq_iff_iff, covers_iff wf, covers_iff wf', Table.Covered, Table.Covered]
  simp only [h.within_iff (hidesBelow_covers wf sel) hid]

/-- Deletions one after the other delete what they would delete together. -/
theorem deleteSelected_bind (wf : r.table.WellFormed) (sel sel' : Selection) :
    (r.deleteSelected sel >>= fun next => next.deleteSelected sel') =
      r.deleteSelected (sel.union sel') := by
  cases htransient : r.transient with
  | false =>
      simp only [deleteSelected, editable, htransient, Bool.false_eq_true, if_false]
      rfl
  | true =>
      obtain ⟨next, hnext⟩ := exists_deleteSelected_eq_ok htransient sel
      obtain ⟨-, wf', hkeeps, hpruned⟩ := (deleteSelected_eq_ok_iff_isPruned wf).mp hnext
      obtain ⟨last, hlast⟩ := exists_deleteSelected_eq_ok (hkeeps.trans htransient) sel'
      obtain ⟨-, wf'', hkeeps', hpruned'⟩ := (deleteSelected_eq_ok_iff_isPruned wf').mp hlast
      have hboth : r.deleteSelected (sel.union sel') = .ok last := by
        refine (deleteSelected_eq_ok_iff_isPruned wf).mpr
          ⟨htransient, wf'', hkeeps'.trans hkeeps, (hpruned.trans hpruned').congr wf fun id _ => ?_⟩
        rw [covers_union wf]
        cases hid : r.covers sel id with
        | true => rfl
        | false => rw [covers_of_isPruned hpruned wf wf' hid]
      rw [hboth, hnext]
      exact hlast

theorem delete_eq (wf : r.table.WellFormed) (hid : r.contains id = true) :
    r.delete id = r.deleteSelected (.object id) := by
  cases htransient : r.transient with
  | false =>
      simp only [delete, deleteSelected, editable, htransient, Bool.false_eq_true, if_false]
      rfl
  | true =>
      rw [delete_eq_ok_iff.mpr ⟨htransient, hid, rfl⟩, eq_comm]
      refine (deleteSelected_eq_ok_iff_isPruned wf).mpr ⟨htransient, wf.removeSubtree id, rfl,
        (wf.isPruned_removeSubtree id).congr wf fun x _ => ?_⟩
      rw [Bool.eq_iff_iff, covers_iff wf]
      simp [Table.Covered, wf.mem_subtree hid]

theorem deleteEach_eq (wf : r.table.WellFormed) (htransient : r.transient = true)
    (ids : List ObjectId) : r.deleteEach ids = r.deleteSelected (.ofList ids) := by
  induction ids generalizing r with
  | nil =>
      have hnone : r.selected (.ofList []) = [] := by simp [selected, List.filter_eq_nil_iff]
      rw [eq_comm, deleteEach]
      refine deleteSelected_eq_ok_iff.mpr ⟨htransient, ?_⟩
      rw [hnone, List.foldl_nil]
  | cons id ids ih =>
      rw [deleteEach]
      split
      · rename_i hid
        have hunion : (Selection.object id).union (.ofList ids) = .ofList (id :: ids) := by
          refine Selection.ext fun x => ?_
          rw [Bool.eq_iff_iff]
          simp
        obtain ⟨next, hnext⟩ := exists_deleteSelected_eq_ok htransient (.object id)
        obtain ⟨-, wf', hkeeps, -⟩ := (deleteSelected_eq_ok_iff_isPruned wf).mp hnext
        rw [← hunion, ← deleteSelected_bind wf, delete_eq wf hid, hnext]
        exact ih wf' (hkeeps.trans htransient)
      · rename_i hid
        rw [ih wf htransient]
        refine deleteSelected_congr wf fun x hx => ?_
        have hne : x ≠ id := fun h => hid (h ▸ hx)
        rw [Bool.eq_iff_iff]
        simp [hne]

/-! ### What is left -/

theorem getElem?_filter_of_getElem? {keep : ObjectId → Bool} {list : List ObjectId} {i : Nat}
    (h : list[i]? = some id) (hid : keep id = true) :
    (list.filter keep)[(list.take i).countP keep]? = some id := by
  induction list generalizing i with
  | nil => simp at h
  | cons x list ih =>
      cases i with
      | zero =>
          rw [List.getElem?_cons_zero, Option.some.injEq] at h
          simp [h, hid]
      | succ i =>
          rw [List.getElem?_cons_succ] at h
          cases hx : keep x <;> simp [hx, ih h]

theorem pruned_of_deleteSelected (wf : r.table.WellFormed)
    (h : r.deleteSelected sel = .ok next) : r.Pruned sel next := by
  obtain ⟨-, wf', htransient, hpruned⟩ := (deleteSelected_eq_ok_iff_isPruned wf).mp h
  have hdown := hidesBelow_covers wf sel
  refine ⟨fun id => covers_iff wf, hpruned.preorder_eq hdown wf wf', fun id hid => ?_,
    fun id hcontains hid => ?_, hpruned.size_eq hdown wf wf', htransient⟩
  · rw [state?, hpruned.get?_eq, hid, if_neg Bool.false_ne_true, state?]
  · obtain ⟨place, index, hlocation⟩ := wf.exists_location?_eq_some hcontains
    obtain ⟨hplace, hindex⟩ := wf.location?_eq_some_iff.mp hlocation
    have hlt := (List.getElem?_eq_some_iff.mp hindex).1
    refine ⟨place, index, ((r.attachedTo place).take index).countP (!r.covers sel ·), hlocation,
      wf'.location?_eq_some_iff.mpr ⟨?_, ?_⟩, ?_⟩
    · rw [hpruned.place?_eq, hid, if_neg Bool.false_ne_true, hplace]
    · rw [attachedTo, hpruned.siblings_eq]
      exact getElem?_filter_of_getElem? hindex (by rw [hid, Bool.not_false])
    · rw [Table.countP_not_add_countP, List.length_take, Nat.min_eq_left (Nat.le_of_lt hlt)]

end Revision

end Schematic
