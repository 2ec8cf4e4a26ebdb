import Schematic.Proofs.Store.Rearrangement
import Schematic.Proofs.Store.Removal

namespace Schematic

/-! ### A new object -/

namespace Table.WellFormed

variable {t : Table} {id x : ObjectId} {state : ObjectState} {parent before other : Option ObjectId}
  {place : Placement} (wf : t.WellFormed) (hnew : t.contains id = false)

include wf hnew

theorem siblings_eq_nil_of_absent : t.siblings (some id) = [] :=
  Revision.attachedTo_eq_nil_of_absent (r := ⟨t, true⟩) wf hnew

theorem filter_siblings_insert :
    ((t.insert id state parent before).siblings other).filter (· != id) = t.siblings other := by
  have hkept : ∀ place, (t.siblings place).filter (· != id) = t.siblings place := fun place =>
    filter_bne_eq_self (Revision.not_mem_attachedTo_of_absent (r := ⟨t, true⟩) wf hnew place)
  rw [siblings_insert]
  split
  · rename_i h
    rw [filter_insertBefore (by simp), hkept, h]
  · exact hkept other

variable (hparent : ∀ p, parent = some p → t.isContainer p = true)

include hparent

theorem subtree_insert : (t.insert id state parent before).subtree id = [id] := by
  have hother : parent ≠ some id := by
    intro h
    rw [contains_of_isContainer (hparent id h)] at hnew
    cases hnew
  have hid : (t.insert id state parent before).contains id = true := by simp
  rw [(wf.insert hnew hparent).subtree_eq hid]
  simp [hother, wf.siblings_eq_nil_of_absent hnew]

theorem removeSubtree_insert : (t.insert id state parent before).removeSubtree id = t := by
  have wf' : (t.insert id state parent before).WellFormed := wf.insert hnew hparent
  have hpruned := wf'.isPruned_removeSubtree id
  rw [wf.subtree_insert hnew hparent] at hpruned
  refine (wf'.removeSubtree id).ext wf (fun x => ?_) fun other => ?_
  · rw [hpruned.get?_eq, get?_insert]
    by_cases hx : x = id
    · have hnone : t.get? id = none :=
        Option.isNone_iff_eq_none.mp (Option.isSome_eq_false_iff.mp hnew)
      simp [hx, hnone]
    · simp [hx, Ne.symm hx]
  · rw [hpruned.siblings_eq]
    refine (List.filter_congr fun x _ => ?_).trans (wf.filter_siblings_insert hnew)
    rw [Bool.eq_iff_iff]
    simp

/-- A new object may be moved to wherever it might have been added, and to no other place. -/
theorem check_insert (hplace : ¬ place.Names none id) :
    place.check (t.insert id state parent before) (some id) = place.check t none := by
  have wf' : (t.insert id state parent before).WellFormed := wf.insert hnew hparent
  have hget : ∀ x, place.Names none x →
      (t.insert id state parent before).get? x = t.get? x := by
    intro x hx
    rw [get?_insert, if_neg]
    rintro rfl
    exact hplace hx
  have hid : (t.insert id state parent before).contains id = true := by simp
  refine Placement.check_congr (fun x hx => nomatch hx) (fun x hx => ?_) (fun x hx => ?_)
    (fun p hp => ?_) fun next hnext => ?_
  · cases hx
    exact hid
  · rw [contains, contains, hget x hx]
  · have hne : p ≠ id := by
      rintro rfl
      exact hplace (.inr (.inl hp))
    have hout : (t.insert id state parent before).isAncestorOrSelf id p = false := by
      rw [Bool.eq_false_iff, Ne, wf'.isAncestorOrSelf_iff, ← wf'.mem_subtree hid,
        wf.subtree_insert hnew hparent, List.mem_singleton]
      exact hne
    have hstate := congrArg (Option.map Entry.state) (hget p (.inr (.inl hp)))
    rw [Placement.rejectsParent, Placement.rejectsParent, Option.any_some, Option.any_none, hout,
      isContainer_eq_of_state hstate]
  · rw [parent?, hget next (.inr (.inr hnext)), parent?]

theorem move_insert (hcheck : place.check t none = .ok ()) (hplace : ¬ place.Names none id) :
    (t.insert id state parent before).move id place =
      t.insert id state place.parent place.before := by
  have wf' : (t.insert id state parent before).WellFormed := wf.insert hnew hparent
  have hcheck' : place.check (t.insert id state parent before) (some id) = .ok () :=
    (wf.check_insert hnew hparent hplace).trans hcheck
  obtain ⟨-, hcontainer, -⟩ := (Placement.check_eq_ok_iff_of_wellFormed wf).mp hcheck
  refine (wf'.move hcheck').ext (wf.insert hnew fun p hp => (hcontainer p hp).1) (fun x => ?_)
    fun other => ?_
  · simp only [get?_move, get?_insert, if_true]
    split <;> rfl
  · rw [wf'.siblings_move, wf.filter_siblings_insert hnew, siblings_insert, Placement.successor,
      if_neg fun h => hplace (.inr (.inr h))]
    split
    · rename_i h
      rw [h]
    · rfl

end Table.WellFormed

/-! ### Other names -/

namespace Table

/-- The same tree with other names for its objects. -/
structure IsRenamed (t : Table) (σ : Equiv.Perm ObjectId) (u : Table) : Prop where
  place?_eq : ∀ x, u.place? (σ x) = (t.place? x).map (Option.map σ)
  siblings_eq : ∀ place : Option ObjectId, u.siblings (place.map σ) = (t.siblings place).map σ

variable {t u : Table} {σ : Equiv.Perm ObjectId} {id : ObjectId}
  {parent before place : Option ObjectId}

theorem map_insertBefore (id : ObjectId) (before : Option ObjectId) (list : List ObjectId) :
    (insertBefore id before list).map σ = insertBefore (σ id) (before.map σ) (list.map σ) := by
  induction list with
  | nil => rfl
  | cons x list ih =>
      have hx : some (σ x) = before.map σ ↔ some x = before :=
        (Option.map_injective σ.injective).eq_iff (a := some x)
      rw [insertBefore, List.map_cons, insertBefore]
      simp only [hx]
      split
      · rfl
      · rw [List.map_cons, ih]

section Unused

variable (hσ : ∀ x, t.contains x = true → σ x = x)

include hσ

theorem get?_apply (x : ObjectId) : t.get? (σ x) = t.get? x := by
  cases hx : t.get? x with
  | some entry => rw [hσ x (Option.isSome_iff_exists.mpr ⟨entry, hx⟩), hx]
  | none =>
      by_contra h
      have hpresent : t.contains (σ x) = true := Option.isSome_iff_ne_none.mpr h
      rw [σ.injective (hσ _ hpresent), contains, hx] at hpresent
      cases hpresent

theorem map_eq_self {object : Option ObjectId} (h : ∀ x, object = some x → t.contains x = true) :
    object.map σ = object := by
  cases object with
  | none => rfl
  | some x => rw [Option.map_some, hσ x (h x rfl)]

theorem WellFormed.isRenamed_self (wf : t.WellFormed) : t.IsRenamed σ t where
  place?_eq x := by
    rw [place?, get?_apply hσ, ← place?]
    cases hx : t.place? x with
    | none => rfl
    | some parent =>
        rw [Option.map_some, map_eq_self hσ]
        rintro p rfl
        exact wf.contains_parent hx
  siblings_eq place := by
    have hlist : (t.siblings place).map σ = t.siblings place :=
      (List.map_congr_left fun x hx => hσ x (wf.contains_of_mem_siblings hx)).trans (List.map_id _)
    rw [hlist]
    cases place with
    | none => rfl
    | some x =>
        cases hx : t.contains x with
        | true => rw [Option.map_some, hσ x hx]
        | false =>
            have hx' : t.contains (σ x) = false := by rw [contains, get?_apply hσ, ← contains, hx]
            rw [Option.map_some, wf.siblings_eq_nil_of_absent hx, wf.siblings_eq_nil_of_absent hx']

end Unused

namespace IsRenamed

variable (h : t.IsRenamed σ u)

include h

theorem insert (id : ObjectId) (state state' : ObjectState) (parent before : Option ObjectId) :
    (t.insert id state parent before).IsRenamed σ
      (u.insert (σ id) state' (parent.map σ) (before.map σ)) where
  place?_eq x := by
    simp only [place?_insert, h.place?_eq, σ.injective.eq_iff]
    split <;> rfl
  siblings_eq place := by
    simp only [siblings_insert, h.siblings_eq, (Option.map_injective σ.injective).eq_iff]
    split
    · rw [map_insertBefore]
    · rfl

variable (wf : t.WellFormed) (wf' : u.WellFormed)

include wf wf'

theorem preorder_eq : u.preorder = t.preorder.map σ := by
  have htop : u.siblings none = (t.siblings none).map σ := h.siblings_eq none
  rw [wf'.preorder_eq, wf.preorder_eq, htop, List.flatMap_map, List.map_flatMap]
  refine List.flatMap_congr fun root hroot => ?_
  have hroot' : σ root ∈ u.siblings none := htop ▸ List.mem_map_of_mem hroot
  exact wf.subtree_map wf' (wf.contains_of_mem_siblings hroot)
    (wf'.contains_of_mem_siblings hroot') fun x _ => h.siblings_eq (some x)

end IsRenamed

end Table

namespace Revision

/-- Revisions that are the same but for one object, which is `id` in the one and `id'` in the other.
Its payload is the same, but its instance may be another. -/
structure SameUpTo (r : Revision) (id : ObjectId) (r' : Revision) (id' : ObjectId) : Prop where
  objects_eq : r'.objects = r.objects.map (Equiv.swap id id')
  attachedTo_eq : ∀ parent : Option ObjectId, r'.attachedTo (parent.map (Equiv.swap id id')) =
    (r.attachedTo parent).map (Equiv.swap id id')
  location?_eq : ∀ x, r'.location? (Equiv.swap id id' x) =
    (r.location? x).map fun location => (location.1.map (Equiv.swap id id'), location.2)
  payload?_eq : ∀ x, r'.payload? (Equiv.swap id id' x) = r.payload? x
  state?_eq : ∀ x, x ≠ id → x ≠ id' → r'.state? x = r.state? x
  transient_eq : r'.transient = r.transient

variable {r r' : Revision} {σ : Equiv.Perm ObjectId} {id id' : ObjectId} {kept : Payload}
  {place : Placement}

theorem location?_eq_of_isRenamed (h : r.table.IsRenamed σ r'.table) (x : ObjectId) :
    r'.location? (σ x) = (r.location? x).map fun location => (location.1.map σ, location.2) := by
  rw [location?_eq, location?_eq, h.place?_eq]
  cases r.table.place? x with
  | none => rfl
  | some place =>
      have hlist : r'.attachedTo (place.map σ) = (r.attachedTo place).map σ := h.siblings_eq place
      have hindex : ((r.attachedTo place).map σ).idxOf? (σ x) = (r.attachedTo place).idxOf? x := by
        rw [List.idxOf?, List.findIdx?_map, List.idxOf?]
        congr 1
        funext y
        simp
      simp only [Option.map_some, Option.bind_some, hlist, hindex, Option.map_map]
      rfl

/-- It does not matter which of the unused identities a new object is given. -/
theorem sameUpTo_insert {t : Table} (wf : t.WellFormed) (hid : t.contains id = false)
    (hid' : t.contains id' = false) (hplace : place.check t none = .ok ()) (stamp stamp' : Nat)
    (transient : Bool) :
    SameUpTo ⟨t.insert id ⟨stamp, kept⟩ place.parent place.before, transient⟩ id
      ⟨t.insert id' ⟨stamp', kept⟩ place.parent place.before, transient⟩ id' := by
  obtain ⟨-, hparent, hbefore⟩ := (Placement.check_eq_ok_iff_of_wellFormed wf).mp hplace
  have hcontainer : ∀ p, place.parent = some p → t.isContainer p = true := fun p hp =>
    (hparent p hp).1
  have hσ : ∀ x, t.contains x = true → Equiv.swap id id' x = x := by
    intro x hx
    refine Equiv.swap_apply_of_ne_of_ne ?_ ?_
    · rintro rfl
      simp [hx] at hid
    · rintro rfl
      simp [hx] at hid'
  have hrenamed := (wf.isRenamed_self hσ).insert id ⟨stamp, kept⟩ ⟨stamp', kept⟩ place.parent
    place.before
  rw [Equiv.swap_apply_left,
    Table.map_eq_self hσ fun p hp => Table.contains_of_isContainer (hcontainer p hp),
    Table.map_eq_self hσ fun next hn => Table.contains_of_place? (hbefore next hn)] at hrenamed
  refine ⟨hrenamed.preorder_eq (wf.insert hid hcontainer) (wf.insert hid' hcontainer),
    hrenamed.siblings_eq, location?_eq_of_isRenamed hrenamed, fun x => ?_, fun x hx hx' => ?_, rfl⟩
  · have hsame : id' = Equiv.swap id id' x ↔ id = x := by
      rw [← (Equiv.swap id id').injective.eq_iff (a := id), Equiv.swap_apply_left]
    simp only [payload?, state?, Table.get?_insert, Table.get?_apply hσ, hsame]
    split <;> rfl
  · simp [state?, Ne.symm hx, Ne.symm hx']

/-! ### A move after an addition -/

variable {added : Revision} {payload : Payload} {supply left : Supply}

theorem relocate_insert {t : Table} (wf : t.WellFormed) (hid : t.contains id = false)
    (hplace : ¬ place.Names none id) (state : ObjectState) :
    relocate ⟨t.insert id state none none, true⟩ id place =
      (place.check t none).map fun _ =>
        ⟨t.insert id state place.parent place.before, true⟩ := by
  have htop : ∀ p, (none : Option ObjectId) = some p → t.isContainer p = true := nofun
  rw [relocate_eq rfl, Table.relocate, wf.check_insert hid htop hplace]
  cases hcheck : place.check t none with
  | error e => rfl
  | ok _ =>
      rw [Except.map, Except.map, wf.move_insert hid htop hcheck hplace]
      rfl

theorem add_eq (htransient : r.transient = true) (hpayload : payload.validate = .ok ())
    (supply : Supply) (place : Placement) :
    r.add supply payload place = (place.check r.table none).map fun _ =>
      (⟨supply.nextId⟩,
        ⟨r.table.insert ⟨supply.nextId⟩ ⟨supply.nextStamp, payload.normalize⟩ place.parent
          place.before, true⟩,
        ⟨supply.nextId + 1, supply.nextStamp + 1⟩) := by
  cases hplace : place.check r.table none with
  | error e =>
      exact add_eq_error_iff.mpr (.inr ⟨htransient, .inl hplace⟩)
  | ok _ =>
      refine add_eq_ok_iff.mpr ⟨htransient, hplace, payload.normalize,
        Payload.accept_eq_ok_iff.mpr ⟨hpayload, rfl⟩, ?_⟩
      rw [htransient]

theorem delete_of_add (wf : r.table.WellFormed) (hnew : r.contains ⟨supply.nextId⟩ = false)
    (hadd : r.add supply payload place = .ok (id, added, left)) : added.delete id = .ok r := by
  obtain ⟨htransient, hplace, kept, -, hresult⟩ := add_eq_ok_iff.mp hadd
  obtain ⟨-, hparent, -⟩ := (Placement.check_eq_ok_iff_of_wellFormed wf).mp hplace
  cases hresult
  refine delete_eq_ok_iff.mpr ⟨htransient, ?_, ?_⟩
  · simp [contains]
  · rw [wf.removeSubtree_insert hnew fun p hp => (hparent p hp).1]

end Revision

end Schematic
