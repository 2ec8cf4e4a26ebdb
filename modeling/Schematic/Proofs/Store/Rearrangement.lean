import Schematic.Proofs.Store.Absence

namespace Schematic

namespace Placement

variable {t u : Table} {object object' : Option ObjectId} {place : Placement}

theorem check_congr (hobject : ∀ x, object = some x → t.contains x = true)
    (hobject' : ∀ x, object' = some x → u.contains x = true)
    (hcontains : ∀ x, place.Names none x → u.contains x = t.contains x)
    (hrejects : ∀ p, place.parent = some p → rejectsParent u object' p = rejectsParent t object p)
    (hparent : ∀ next, place.before = some next → u.parent? next = t.parent? next) :
    place.check u object' = place.check t object := by
  obtain ⟨parent, before⟩ := place
  have hnone : ∀ {v : Table} {x : Option ObjectId}, (∀ y, x = some y → v.contains y = true) →
      x.filter (!v.contains ·) = none := by
    intro v x hx
    refine Option.filter_eq_none_iff.mpr fun y hy => ?_
    simp [hx y hy]
  have hfault : fault? u object' ⟨parent, before⟩ = fault? t object ⟨parent, before⟩ := by
    unfold fault?
    rw [hnone hobject, hnone hobject']
    cases parent <;> cases before <;> simp_all [Names, Option.filter_some]
  rw [check, hfault, check]

end Placement

namespace Table

variable {t : Table} {id x : ObjectId} {place first second : Placement}

@[simp] theorem contains_move : (t.move id place).contains x = t.contains x := by
  have hstate : ((t.move id place).get? x).map Entry.state = (t.get? x).map Entry.state :=
    Revision.state?_move t true x
  rw [contains, ← Option.isSome_map, hstate, Option.isSome_map, contains]

namespace WellFormed

variable (wf : t.WellFormed) (hfirst : first.check t (some id) = .ok ())

include wf hfirst

theorem within_move_iff : (t.move id first).Within id x ↔ t.Within id x := by
  have hid : t.contains id = true := by
    obtain ⟨hid, -⟩ := (Placement.check_eq_ok_iff_of_wellFormed wf).mp hfirst
    exact hid id rfl
  rw [← (wf.move hfirst).mem_subtree (contains_move.trans hid), wf.subtree_move hfirst,
    wf.mem_subtree hid]

/-- Whether an object may be moved does not depend on where it stands. -/
theorem check_move (hsecond : second.before ≠ some id) :
    second.check (t.move id first) (some id) = second.check t (some id) := by
  obtain ⟨hid, -⟩ := (Placement.check_eq_ok_iff_of_wellFormed wf).mp hfirst
  refine Placement.check_congr hid (fun x hx => contains_move.trans (hid x hx))
    (fun x _ => contains_move) (fun p _ => ?_) fun next hnext => ?_
  · rw [Placement.rejectsParent, Placement.rejectsParent, Option.any_some, Option.any_some,
      isContainer_eq_of_state (Revision.state?_move t true p), Bool.eq_iff_iff, Bool.or_eq_true,
      Bool.or_eq_true, (wf.move hfirst).isAncestorOrSelf_iff, wf.isAncestorOrSelf_iff,
      wf.within_move_iff hfirst]
  · have hne : id ≠ next := by
      rintro rfl
      exact hsecond hnext
    rw [parent?_eq, parent?_eq, place?_move (hid id rfl), if_neg hne]

/-- Where an object comes to stand does not depend on where it stood. -/
theorem move_move (hplace : second.check t (some id) = .ok ())
    (hsecond : second.before ≠ some id) :
    (t.move id first).move id second = t.move id second := by
  have wf' := wf.move hfirst
  have hplace' := (wf.check_move hfirst hsecond).trans hplace
  refine (wf'.move hplace').ext (wf.move hplace) (fun x => ?_) fun other => ?_
  · simp only [get?_move, if_true]
    split
    · rw [Option.map_map]
      rfl
    · rfl
  · have hkept : ((t.move id first).siblings other).filter (· != id) =
        (t.siblings other).filter (· != id) := wf.filter_siblings_move (by simp)
    rw [wf'.siblings_move, hkept, wf.siblings_move, Placement.successor, if_neg hsecond,
      Placement.successor, if_neg hsecond]

theorem relocate_move (hsecond : second.before ≠ some id) :
    (t.move id first).relocate id second = t.relocate id second := by
  rw [relocate, relocate, wf.check_move hfirst hsecond]
  cases hplace : second.check t (some id) with
  | error e => rfl
  | ok _ =>
      rw [Except.map, Except.map, wf.move_move hfirst hplace hsecond]

end WellFormed

theorem WellFormed.relocate_eq_self (wf : t.WellFormed) {parent : Option ObjectId}
    {front back : List ObjectId} (hlist : t.siblings parent = front ++ id :: back) :
    t.relocate id ⟨parent, back.head?⟩ = .ok t := by
  have hparent : t.place? id = some parent := wf.mem_siblings.mp (by simp [hlist])
  have hnodup := wf.nodup_siblings parent
  have hnext : back.head? ≠ some id := by
    intro hhead
    rw [hlist] at hnodup
    exact (notMem_of_nodup_append_cons hnodup).2 (List.mem_of_mem_head? hhead)
  have hplace : Placement.check t (some id) ⟨parent, back.head?⟩ = .ok () := by
    refine (Placement.check_eq_ok_iff_of_wellFormed wf).mpr ⟨?_, fun p hp => ?_, fun next hn => ?_⟩
    · intro x hx
      cases hx
      exact contains_of_place? hparent
    · cases hp
      refine ⟨wf.isContainer hparent, fun x hx => ?_⟩
      cases hx
      exact wf.not_within_parent hparent
    · refine wf.mem_siblings.mp ?_
      rw [hlist]
      exact List.mem_append_right _ (List.mem_cons_of_mem _ (List.mem_of_mem_head? hn))
  rw [relocate, hplace, Except.map,
    wf.move_eq_self_of_siblings hlist (by rw [Placement.successor, if_neg hnext])]

end Table

namespace Revision

variable {r moved : Revision} {id : ObjectId} {first second : Placement}

theorem relocate_eq (htransient : r.transient = true) (id : ObjectId) (place : Placement) :
    r.relocate id place = (r.table.relocate id place).map fun t => { r with table := t } := by
  rw [relocate, editable, if_pos htransient]
  change (r.table.relocate id place >>= fun t => pure { r with table := t }) = _
  cases r.table.relocate id place <;> rfl

/-- Of two moves of one object the second alone counts, unless it names the object itself. -/
theorem relocate_of_relocate (wf : r.table.WellFormed) (hmove : r.relocate id first = .ok moved)
    (hsecond : second.before ≠ some id) : moved.relocate id second = r.relocate id second := by
  obtain ⟨htransient, hfirst, rfl⟩ := relocate_eq_ok_iff.mp hmove
  rw [relocate_eq htransient, ← wf.relocate_move hfirst hsecond]
  exact relocate_eq (r := { r with table := r.table.move id first }) htransient id second

theorem relocate_eq_self (wf : r.table.WellFormed) (htransient : r.transient = true)
    {parent : Option ObjectId} {index : Nat} (hlocation : r.location? id = some (parent, index)) :
    (r.attachedTo parent)[index + 1]? ≠ some id ∧
      r.relocate id ⟨parent, (r.attachedTo parent)[index + 1]?⟩ = .ok r := by
  obtain ⟨-, hindex⟩ := wf.location?_eq_some_iff.mp hlocation
  obtain ⟨hlt, rfl⟩ := List.getElem?_eq_some_iff.mp hindex
  have hlist : r.table.siblings parent = (r.attachedTo parent).take index ++
      (r.attachedTo parent)[index] :: (r.attachedTo parent).drop (index + 1) := by
    rw [List.cons_getElem_drop_succ, List.take_append_drop]
    rfl
  have hself := wf.relocate_eq_self hlist
  rw [List.head?_drop] at hself
  refine ⟨fun hnext => ?_, ?_⟩
  · obtain ⟨hlt', heq⟩ := List.getElem?_eq_some_iff.mp hnext
    have := ((wf.nodup_siblings parent).getElem_inj_iff).mp heq
    omega
  · rw [relocate_eq htransient, hself]
    rfl

end Revision

end Schematic
