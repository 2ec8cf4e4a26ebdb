import Schematic.Proofs.Store.Correspondence
import Schematic.Proofs.Store.Edit

namespace Schematic

namespace Table

variable {t u : Table} {id p : ObjectId} {parent before : Option ObjectId}

/-! ### Lists -/

theorem filter_insertBefore {keep : ObjectId → Bool} (hid : keep id = false)
    (list : List ObjectId) : (insertBefore id before list).filter keep = list.filter keep := by
  induction list with
  | nil => simp [insertBefore, hid]
  | cons x list ih =>
      rw [insertBefore]
      split
      · rw [List.filter_cons_of_neg (by simp [hid])]
      · rw [List.filter_cons, ih, List.filter_cons]

theorem insertBefore_eq_append (id : ObjectId) (list : List ObjectId)
    (hbefore : ∀ next, before = some next → next ∈ list) :
    ∃ front back, insertBefore id before list = front ++ id :: back ∧ back.head? = before := by
  cases before with
  | none => exact ⟨list, [], insertBefore_none id list, rfl⟩
  | some next =>
      obtain ⟨front, back, rfl, hnext⟩ := List.eq_append_cons_of_mem (hbefore next rfl)
      exact ⟨front, next :: back, insertBefore_append id next front back hnext, rfl⟩

theorem insertBefore_head?_filter {front back : List ObjectId}
    (hnodup : (front ++ id :: back).Nodup) :
    insertBefore id back.head? ((front ++ id :: back).filter (· != id)) = front ++ id :: back := by
  obtain ⟨hidfront, hidback⟩ := notMem_of_nodup_append_cons hnodup
  have hkept : (front ++ id :: back).filter (· != id) = front ++ back := by
    rw [List.filter_append, List.filter_cons_of_neg (by simp), filter_bne_eq_self hidfront,
      filter_bne_eq_self hidback]
  rw [hkept]
  cases back with
  | nil => rw [List.append_nil, List.head?_nil, insertBefore_none]
  | cons next back =>
      rw [List.head?_cons, insertBefore_append]
      rw [← List.singleton_append, ← List.append_assoc] at hnodup
      exact fun h => (notMem_of_nodup_append_cons hnodup).1 (List.mem_append_left _ h)

theorem removeAll_append_append {block front back : List ObjectId}
    (hnodup : (front ++ block ++ back).Nodup) :
    (front ++ block ++ back).removeAll block = front ++ back := by
  obtain ⟨hfront, hback⟩ := notMem_block hnodup
  unfold List.removeAll
  rw [List.filter_append, List.filter_append, List.filter_eq_self.mpr,
    List.filter_eq_nil_iff.mpr, List.filter_eq_self.mpr, List.append_nil]
  · simpa using hback
  · simp
  · simpa using hfront

/-! ### What stays -/

variable {place : Placement} {other : Option ObjectId}

@[simp] theorem get?_move {x : ObjectId} : (t.move id place).get? x =
    if id = x then (t.get? id).map fun entry => { entry with parent := place.parent }
    else t.get? x :=
  get?_relink t id place.parent _ x

theorem place?_move (hid : t.contains id = true) {x : ObjectId} :
    (t.move id place).place? x = if id = x then some place.parent else t.place? x :=
  place?_relink hid

namespace WellFormed

variable (wf : t.WellFormed) (hplace : place.check t (some id) = .ok ())

include wf

theorem siblings_move : (t.move id place).siblings other =
    if place.parent = other then
      insertBefore id (place.successor t id) ((t.siblings other).filter (· != id))
    else (t.siblings other).filter (· != id) := by
  rw [Table.move, wf.siblings_relink]
  split
  · rename_i h
    rw [h]
  · rfl

theorem filter_siblings_move {keep : ObjectId → Bool} (hid : keep id = false) :
    ((t.move id place).siblings other).filter keep = (t.siblings other).filter keep := by
  have hfilter : ((t.siblings other).filter (· != id)).filter keep =
      (t.siblings other).filter keep := by
    rw [List.filter_filter]
    apply List.filter_congr
    intro x _
    by_cases hx : x = id
    · simp [hx, hid]
    · simp [hx]
  rw [wf.siblings_move]
  split
  · rw [filter_insertBefore hid, hfilter]
  · exact hfilter

/-- An object that is put in front of what follows it stays where it is. -/
theorem move_eq_self_of_siblings {front back : List ObjectId}
    (hlist : t.siblings place.parent = front ++ id :: back)
    (hsuccessor : place.successor t id = back.head?) : t.move id place = t := by
  have hstands : t.place? id = some place.parent := wf.mem_siblings.mp (by simp [hlist])
  have hid := contains_of_place? hstands
  have wf' : (t.move id place).WellFormed := by
    refine wf.relink hid fun p hp => ?_
    rw [hp] at hstands
    exact ⟨wf.isContainer hstands, wf.not_within_parent hstands⟩
  refine wf'.ext wf (fun x => ?_) fun other => ?_
  · rw [get?_move]
    split
    · rename_i hx
      subst hx
      obtain ⟨entry, hentry⟩ := Option.isSome_iff_exists.mp hid
      rw [place?_of_get? hentry, Option.some.injEq] at hstands
      rw [hentry, Option.map_some, ← hstands]
    · rfl
  · rw [wf.siblings_move]
    have hnodup := wf.nodup_siblings other
    split
    · rename_i heq
      subst heq
      rw [hlist] at hnodup
      rw [hsuccessor, hlist, insertBefore_head?_filter hnodup]
    · rename_i hne
      refine filter_bne_eq_self fun hmem => hne ?_
      exact Option.some.inj (hstands.symm.trans (wf.mem_siblings.mp hmem))

include hplace

theorem move_eq_self (hbefore : place.before = some id) : t.move id place = t := by
  obtain ⟨-, -, hnext⟩ := (Placement.check_eq_ok_iff_of_wellFormed wf).mp hplace
  have hparent : t.place? id = some place.parent := hnext id hbefore
  obtain ⟨front, back, hlist⟩ := List.append_of_mem (wf.mem_siblings.mpr hparent)
  have hindex : t.position? id = some front.length :=
    (wf.position?_eq_some_iff hparent).mpr (by simp [hlist])
  refine wf.move_eq_self_of_siblings hlist ?_
  rw [Placement.successor, if_pos hbefore, hindex, Option.bind_some, hlist]
  cases back <;> simp

theorem subtree_move : (t.move id place).subtree id = t.subtree id := by
  obtain ⟨hid, hparent, -⟩ := (Placement.check_eq_ok_iff_of_wellFormed wf).mp hplace
  have hmoved : (t.move id place).contains id = true :=
    contains_of_place? ((place?_move (hid id rfl)).trans (if_pos rfl))
  apply wf.subtree_congr (wf.move hplace) (hid id rfl) hmoved
  intro x hx
  rw [wf.siblings_move, if_neg fun h => (hparent x h).2 id rfl hx]
  exact filter_bne_eq_self fun hmem => wf.not_within_parent (wf.mem_siblings.mp hmem) hx

/-! ### Where the block comes to stand -/

theorem hidesBelow_move : (t.move id place).HidesBelow fun x => !(t.subtree id).elem x := by
  rw [← wf.subtree_move hplace]
  exact (wf.move hplace).hidesBelow_subtree id

theorem removeAll_preorder_move :
    (t.move id place).preorder.removeAll (t.subtree id) =
      t.preorder.removeAll (t.subtree id) := by
  obtain ⟨hid, -, -⟩ := (Placement.check_eq_ok_iff_of_wellFormed wf).mp hplace
  have hself : (!(t.subtree id).elem id) = false := by
    simpa using wf.mem_subtree_self (hid id rfl)
  exact (wf.move hplace).filter_preorder_congr wf (wf.hidesBelow_move hplace)
    (wf.hidesBelow_subtree id) fun other _ => wf.filter_siblings_move hself

theorem removeAll_subtree_move (hp : t.contains p = true) (hout : ¬ t.Within id p) :
    ((t.move id place).subtree p).removeAll (t.subtree id) =
      (t.subtree p).removeAll (t.subtree id) := by
  obtain ⟨hid, -, -⟩ := (Placement.check_eq_ok_iff_of_wellFormed wf).mp hplace
  have hself : (!(t.subtree id).elem id) = false := by
    simpa using wf.mem_subtree_self (hid id rfl)
  have hkeep : (!(t.subtree id).elem p) = true := by
    simpa using mt (wf.mem_subtree (hid id rfl)).mp hout
  have hp' : (t.move id place).contains p = true := by
    obtain ⟨parent, hparent⟩ := contains_iff.mp hp
    have hne : id ≠ p := by
      rintro rfl
      exact hout .self
    rw [contains_iff]
    exact ⟨parent, (place?_move (hid id rfl)).trans ((if_neg hne).trans hparent)⟩
  exact (wf.move hplace).filter_subtree_congr wf (wf.hidesBelow_move hplace)
    (wf.hidesBelow_subtree id) hp' hp (fun x _ => wf.filter_siblings_move hself) hkeep

/-- An object that is not placed before itself comes to stand before the one that is named. -/
theorem exists_siblings_move_eq (hbefore : place.before ≠ some id) :
    ∃ left right, (t.move id place).siblings place.parent = left ++ id :: right ∧
      right.head? = place.before := by
  obtain ⟨-, -, hnext⟩ := (Placement.check_eq_ok_iff_of_wellFormed wf).mp hplace
  have hmem : ∀ next, place.before = some next →
      next ∈ (t.siblings place.parent).filter (· != id) := by
    intro next hn
    refine List.mem_filter.mpr ⟨wf.mem_siblings.mpr (hnext next hn), bne_iff_ne.mpr ?_⟩
    rintro rfl
    exact hbefore hn
  obtain ⟨left, right, hinsert, hright⟩ := insertBefore_eq_append id _ hmem
  refine ⟨left, right, ?_, hright⟩
  rw [wf.siblings_move, if_pos rfl, Placement.successor, if_neg hbefore, hinsert]

theorem removeAll_subtree_of_siblings_move {left : List ObjectId}
    (hp : place.parent = some p)
    (hsiblings : (t.move id place).siblings (some p) = left ++ [id]) :
    (t.subtree p).removeAll (t.subtree id) = p :: left.flatMap (t.move id place).subtree := by
  obtain ⟨-, hparent, -⟩ := (Placement.check_eq_ok_iff_of_wellFormed wf).mp hplace
  obtain ⟨hcontainer, hout⟩ := hparent p hp
  have wf' := wf.move hplace
  have hid : id ∈ (t.move id place).siblings (some p) := by simp [hsiblings]
  have hpresent := wf'.contains_parent (wf'.mem_siblings.mp hid)
  have hsubtree := wf'.subtree_eq_of_siblings hpresent hsiblings
  have hnodup := wf'.nodup_subtree hpresent
  rw [wf.subtree_move hplace, List.flatMap_nil] at hsubtree
  rw [← wf.removeAll_subtree_move hplace (contains_of_isContainer hcontainer) (hout id rfl),
    hsubtree, removeAll_append_append (hsubtree ▸ hnodup), List.append_nil]

theorem exists_preorder_move_eq (hbefore : place.before ≠ some id) :
    ∃ front back, t.preorder.removeAll (t.subtree id) = front ++ back ∧
      (t.move id place).preorder = front ++ t.subtree id ++ back ∧
        (∀ next, place.before = some next → back.head? = some next) ∧
          (place.before = none → (place.parent = none → back = []) ∧
            ∀ p, place.parent = some p →
              ∃ above, front = above ++ (t.subtree p).removeAll (t.subtree id)) := by
  have wf' := wf.move hplace
  obtain ⟨left, right, hsiblings, hright⟩ := wf.exists_siblings_move_eq hplace hbefore
  obtain ⟨front, back, hsplit, htop, habove⟩ := wf'.exists_preorder_eq_of_siblings hsiblings
  rw [wf.subtree_move hplace] at hsplit
  refine ⟨front, right.flatMap (t.move id place).subtree ++ back, ?_, hsplit, ?_, ?_⟩
  · rw [← wf.removeAll_preorder_move hplace, hsplit,
      removeAll_append_append (hsplit ▸ wf'.nodup_preorder)]
  · intro next hn
    rw [hn, List.head?_eq_some_iff] at hright
    obtain ⟨rest, rfl⟩ := hright
    have hnext : next ∈ (t.move id place).siblings place.parent := by simp [hsiblings]
    rw [List.flatMap_cons, wf'.subtree_eq (wf'.contains_of_mem_siblings hnext)]
    rfl
  · intro hn
    rw [hn, List.head?_eq_none_iff] at hright
    subst hright
    refine ⟨fun hp => by simpa using htop hp, fun p hp => ?_⟩
    obtain ⟨above, habove⟩ := habove p hp
    rw [hp] at hsiblings
    exact ⟨above, by rw [habove, wf.removeAll_subtree_of_siblings_move hplace hp hsiblings]⟩

end WellFormed

end Table

namespace Revision

/-- What becomes of a revision when an object is moved to a placement. The object with everything
below it is the block that is cut out of the order of all objects and put in again. -/
structure Moved (r : Revision) (id : ObjectId) (place : Placement) (moved : Revision) : Prop where
  block_isInfix : r.table.subtree id <:+: r.objects
  head?_block : (r.table.subtree id).head? = some id
  mem_block : ∀ {x}, x ∈ r.table.subtree id ↔ r.table.Within id x
  objects_of_before_self : place.before = some id → moved.objects = r.objects
  objects_of_before : ∀ {next}, place.before = some next → next ≠ id → ∃ front back,
    r.objects.removeAll (r.table.subtree id) = front ++ next :: back ∧
      moved.objects = front ++ r.table.subtree id ++ next :: back
  objects_of_parent : ∀ {p}, place.before = none → place.parent = some p → ∃ front last back,
    r.objects.removeAll (r.table.subtree id) = front ++ last :: back ∧
      ((r.table.subtree p).removeAll (r.table.subtree id)).getLast? = some last ∧
        moved.objects = front ++ last :: (r.table.subtree id ++ back)
  objects_of_top : place.before = none → place.parent = none →
    moved.objects = r.objects.removeAll (r.table.subtree id) ++ r.table.subtree id
  place?_self : moved.table.place? id = some place.parent
  place?_of_ne : ∀ {x}, x ≠ id → moved.table.place? x = r.table.place? x
  attachedTo_of_ne : ∀ {parent}, parent ≠ place.parent → r.table.place? id ≠ some parent →
    moved.attachedTo parent = r.attachedTo parent
  filter_attachedTo : ∀ parent,
    (moved.attachedTo parent).filter (· != id) = (r.attachedTo parent).filter (· != id)
  state?_eq : ∀ x, moved.state? x = r.state? x

variable {r moved : Revision} {id : ObjectId} {place : Placement}

@[simp] theorem state?_move (t : Table) (transient : Bool) (x : ObjectId) :
    (Revision.mk (t.move id place) transient).state? x = (Revision.mk t transient).state? x := by
  simp only [state?, Table.get?_move]
  split
  · rename_i h
    simp [h, Function.comp_def]
  · rfl

theorem moved_of_relocate (wf : r.table.WellFormed) (h : r.relocate id place = .ok moved) :
    r.Moved id place moved := by
  obtain ⟨-, hplace, rfl⟩ := relocate_eq_ok_iff.mp h
  obtain ⟨hid, hparent, hnext⟩ := (Placement.check_eq_ok_iff_of_wellFormed wf).mp hplace
  replace hid := hid id rfl
  have hobjects := wf.exists_preorder_move_eq hplace
  refine ⟨?_, ?_, wf.mem_subtree hid, ?_, ?_, ?_, ?_, ?_, ?_, ?_, ?_, state?_move r.table _⟩
  · obtain ⟨front, back, hsplit⟩ := wf.exists_preorder_eq_append hid
    exact ⟨front, back, hsplit.symm⟩
  · rw [wf.subtree_eq hid, List.head?_cons]
  · intro hbefore
    change (r.table.move id place).preorder = r.table.preorder
    rw [wf.move_eq_self hplace hbefore]
  · intro next hbefore hne
    obtain ⟨front, back, hcut, hmoved, hhead, -⟩ := hobjects (by simpa [hbefore] using hne)
    obtain ⟨rest, rfl⟩ := List.head?_eq_some_iff.mp (hhead next hbefore)
    exact ⟨front, rest, hcut, hmoved⟩
  · intro p hbefore hp
    obtain ⟨front, back, hcut, hmoved, -, hend⟩ := hobjects (by simp [hbefore])
    obtain ⟨above, rfl⟩ := (hend hbefore).2 p hp
    -- The parent stays when the object is taken out, so that there is a last one to come after.
    have hpmem : p ∈ (r.table.subtree p).removeAll (r.table.subtree id) := by
      obtain ⟨hcontainer, hout⟩ := hparent p hp
      have hself := wf.mem_subtree_self (Table.contains_of_isContainer hcontainer)
      have hnot : p ∉ r.table.subtree id := mt (wf.mem_subtree hid).mp (hout id rfl)
      exact List.mem_filter.mpr ⟨hself, by simpa using hnot⟩
    obtain ⟨last, hlast⟩ := Option.isSome_iff_exists.mp
      (List.getLast?_isSome.mpr (List.ne_nil_of_mem hpmem))
    obtain ⟨rest, hrest⟩ := List.getLast?_eq_some_iff.mp hlast
    refine ⟨above ++ rest, last, back, ?_, hlast, ?_⟩
    · rw [objects, hcut, hrest]
      simp
    · rw [objects, hmoved, hrest]
      simp
  · intro hbefore hp
    obtain ⟨front, back, hcut, hmoved, -, hend⟩ := hobjects (by simp [hbefore])
    rw [(hend hbefore).1 hp, List.append_nil] at hcut hmoved
    rw [objects, objects, hcut, hmoved]
  · exact (Table.place?_move hid).trans (if_pos rfl)
  · intro x hx
    exact (Table.place?_move hid).trans (if_neg hx.symm)
  · intro parent hne hold
    apply wf.siblings_move.trans
    rw [if_neg hne.symm]
    exact Table.filter_bne_eq_self fun hmem => hold (wf.mem_siblings.mp hmem)
  · intro parent
    exact wf.filter_siblings_move (by simp)

end Revision

end Schematic
