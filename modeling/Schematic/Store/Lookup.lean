import Schematic.Store.Table

namespace Schematic.Table

@[simp] theorem get?_empty (id : ObjectId) : empty.get? id = none := by
  simp [get?, empty]

@[simp] theorem siblings_empty (parent : Option ObjectId) : empty.siblings parent = [] := by
  simp [siblings, empty]

/-! ### Lists -/

@[simp] theorem get?_setSiblings (t : Table) (parent : Option ObjectId) (list : List ObjectId)
    (id : ObjectId) : (t.setSiblings parent list).get? id = t.get? id := rfl

@[simp] theorem siblings_setSiblings (t : Table) (parent : Option ObjectId) (list : List ObjectId)
    (other : Option ObjectId) :
    (t.setSiblings parent list).siblings other =
      if parent = other then list else t.siblings other := by
  unfold setSiblings siblings
  cases list with
  | nil => by_cases h : parent = other <;> simp [Std.ExtTreeMap.getElem?_erase, h]
  | cons x xs => by_cases h : parent = other <;> simp [Std.ExtTreeMap.getElem?_insert, h]

@[simp] theorem get?_link (t : Table) (id : ObjectId) (parent before : Option ObjectId)
    (other : ObjectId) : (t.link id parent before).get? other = t.get? other := rfl

@[simp] theorem siblings_link (t : Table) (id : ObjectId) (parent before other : Option ObjectId) :
    (t.link id parent before).siblings other =
      if parent = other then insertBefore id before (t.siblings parent) else t.siblings other :=
  siblings_setSiblings t parent _ other

@[simp] theorem get?_unlink (t : Table) (id other : ObjectId) :
    (t.unlink id).get? other = t.get? other := by
  unfold unlink
  split <;> rfl

@[simp] theorem siblings_unlink (t : Table) (id : ObjectId) (other : Option ObjectId) :
    (t.unlink id).siblings other =
      if (t.get? id).map Entry.parent = some other then (t.siblings other).filter (· != id)
      else t.siblings other := by
  unfold unlink
  cases t.get? id with
  | none => simp
  | some entry =>
      simp only [siblings_setSiblings, Option.map_some, Option.some.injEq]
      by_cases h : entry.parent = other <;> simp [h]

/-! ### Entries -/

@[simp] theorem get?_insert (t : Table) (id : ObjectId) (state : ObjectState)
    (parent before : Option ObjectId) (other : ObjectId) :
    (t.insert id state parent before).get? other =
      if id = other then some ⟨state, parent⟩ else t.get? other := by
  unfold insert
  rw [get?_link]
  simp [get?, Std.ExtTreeMap.getElem?_insert]

@[simp] theorem siblings_insert (t : Table) (id : ObjectId) (state : ObjectState)
    (parent before other : Option ObjectId) :
    (t.insert id state parent before).siblings other =
      if parent = other then insertBefore id before (t.siblings parent) else t.siblings other :=
  siblings_link _ id parent before other

@[simp] theorem get?_setState (t : Table) (id : ObjectId) (state : ObjectState) (other : ObjectId) :
    (t.setState id state).get? other =
      if id = other then (t.get? id).map fun entry => { entry with state } else t.get? other := by
  simp [setState, get?, Std.ExtTreeMap.getElem?_modify]

@[simp] theorem siblings_setState (t : Table) (id : ObjectId) (state : ObjectState)
    (other : Option ObjectId) : (t.setState id state).siblings other = t.siblings other := rfl

@[simp] theorem get?_relink (t : Table) (id : ObjectId) (parent before : Option ObjectId)
    (other : ObjectId) :
    (t.relink id parent before).get? other =
      if id = other then (t.get? id).map fun entry => { entry with parent } else t.get? other := by
  unfold relink
  rw [get?_link, ← get?_unlink t id id, ← get?_unlink t id other]
  simp [get?, Std.ExtTreeMap.getElem?_modify]

@[simp] theorem siblings_relink (t : Table) (id : ObjectId)
    (parent before other : Option ObjectId) :
    (t.relink id parent before).siblings other =
      if parent = other then insertBefore id before ((t.unlink id).siblings parent)
      else (t.unlink id).siblings other :=
  siblings_link _ id parent before other

@[simp] theorem get?_forget (t : Table) (id other : ObjectId) :
    (t.forget id).get? other = if id = other then none else t.get? other := by
  simp [forget, get?, Std.ExtTreeMap.getElem?_erase]

@[simp] theorem siblings_forget (t : Table) (id : ObjectId) (other : Option ObjectId) :
    (t.forget id).siblings other = if some id = other then [] else t.siblings other := by
  unfold forget siblings
  by_cases h : some id = other <;> simp [Std.ExtTreeMap.getElem?_erase, h]

/-! ### Order -/

theorem insertBefore_perm (id : ObjectId) (before : Option ObjectId) (list : List ObjectId) :
    (insertBefore id before list).Perm (id :: list) := by
  induction list with
  | nil => exact .refl _
  | cons x xs ih =>
      unfold insertBefore
      split
      · exact .refl _
      · exact (ih.cons x).trans (.swap id x xs)

@[simp] theorem insertBefore_none (id : ObjectId) (list : List ObjectId) :
    insertBefore id none list = list ++ [id] := by
  induction list with
  | nil => rfl
  | cons x xs ih => simp [insertBefore, ih]

theorem insertBefore_append (id x : ObjectId) (xs ys : List ObjectId) (h : x ∉ xs) :
    insertBefore id (some x) (xs ++ x :: ys) = xs ++ id :: x :: ys := by
  induction xs with
  | nil => simp [insertBefore]
  | cons y xs ih =>
      have hy : y ≠ x := fun hyx => h (hyx ▸ List.mem_cons_self)
      simp [insertBefore, hy, ih fun hx => h (List.mem_cons_of_mem _ hx)]

end Schematic.Table
