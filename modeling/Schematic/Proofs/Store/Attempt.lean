import Schematic.Store.Revision

/-!
An `Attempt` changes the revision and uses up the supply bit by bit, and what it raises comes with
both as they are by then. Nothing is changed or used up before the last check.
-/

namespace Schematic

section Results

variable {ε σ ρ ρ' α β : Type} {s : σ}

def check (x : Except ε α) : EStateM ε σ α := fun s =>
  match x with
  | .ok a => .ok a s
  | .error e => .error e s

/-- From the state `s`, the work comes to this result, of which `out` takes what it gives and what
it leaves behind. Where there is an error, the state is still `s`. -/
def Yields (work : EStateM ε σ α) (s : σ) (x : Except ε ρ) (out : ρ → α × σ) : Prop :=
  work.run s = match x with
    | .ok a => .ok (out a).1 (out a).2
    | .error e => .error e s

theorem yields_check_bind {x : Except ε ρ'} {f : ρ' → EStateM ε σ α} {g : ρ' → Except ε ρ}
    {out : ρ → α × σ} (h : ∀ a, x = .ok a → Yields (f a) s (g a) out) :
    Yields (check x >>= f) s (x >>= g) out := by
  cases x with
  | error e => rfl
  | ok a => exact h a rfl

theorem mapM_check (f : α → Except ε β) (xs : List α) :
    xs.mapM (fun a => check (f a)) = (check (xs.mapM f) : EStateM ε σ (List β)) := by
  induction xs with
  | nil => rfl
  | cons x xs ih =>
      simp only [List.mapM_cons, ih]
      cases f x with
      | error e => rfl
      | ok a => cases xs.mapM f <;> rfl

end Results

namespace Revision

abbrev Attempt := EStateM StoreError (Revision × Supply)

namespace Attempt

def editable : Attempt Table := do
  let (r, _) ← get
  check r.editable

def mint : Attempt ObjectId := modifyGet fun (r, supply) => (supply.mint.1, r, supply.mint.2)

def stamp : Attempt Nat := modifyGet fun (r, supply) => (supply.stamp.1, r, supply.stamp.2)

def change (f : Table → Table) : Attempt Unit :=
  modify fun (r, supply) => ({ r with table := f r.table }, supply)

def add (payload : Payload) (place : Placement) : Attempt ObjectId := do
  let t ← editable
  check (place.check t none)
  let kept ← check (acceptPayload payload)
  let id ← mint
  let stamp ← stamp
  change fun t => t.insert id ⟨stamp, kept⟩ place.parent place.before
  return id

def install (update : ObjectId × Payload) : Attempt Unit := do
  let stamp ← stamp
  change fun t => t.setState update.1 ⟨stamp, update.2⟩

def write (updates : List (ObjectId × Payload)) : Attempt Unit := do
  let t ← editable
  let staged ← updates.mapM fun update => check (stageOne t update.1 update.2)
  (staged.filterMap fun change => change).forM install

def delete (id : ObjectId) : Attempt Unit := do
  let t ← editable
  if t.contains id then change fun t => t.removeSubtree id
  else throw (.noSuchObject id)

def deleteSelected (sel : Selection) : Attempt Unit := do
  let _ ← editable
  let (r, _) ← get
  (r.selected sel).forM fun id => change fun t => t.removeSubtree id

def relocate (id : ObjectId) (place : Placement) : Attempt Unit := do
  let t ← editable
  check (place.check t (some id))
  change fun t => t.move id place

def copyNext (source : Table) (root : ObjectId) (copies : List (ObjectId × ObjectId))
    (id : ObjectId) : Attempt (List (ObjectId × ObjectId)) :=
  match source.get? id with
  | none => return copies
  | some entry => do
      let copy ← mint
      let parent := if id = root then none else entry.parent.bind fun p => copies.lookup p
      change fun t => t.insert copy entry.state parent none
      return (id, copy) :: copies

def copySubtree (source : Table) (root : ObjectId) : Attempt ObjectId := do
  let copies ← (source.subtree root).foldlM (copyNext source root) []
  return (copies.lookup root).getD root

def copy (source : Revision) (id : ObjectId) : Attempt ObjectId := do
  let _ ← editable
  if source.contains id then copySubtree source.table id
  else throw (.noSuchObject id)

def copySelected (source : Revision) (sel : Selection) : Attempt Selection := do
  let _ ← editable
  let copies ← (source.selectedRoots sel).mapM (copySubtree source.table)
  return .ofList copies

variable (r : Revision) (supply : Supply)

theorem yields_editable_bind {α ρ : Type} {f : Table → Attempt α} {r : Revision} {supply : Supply}
    {g : Table → Except StoreError ρ} {out : ρ → α × Revision × Supply}
    (h : Yields (f r.table) (r, supply) (g r.table) out) :
    Yields (editable >>= f) (r, supply) (r.editable >>= g) out := by
  refine yields_check_bind (s := (r, supply)) fun t ht => ?_
  unfold Revision.editable at ht
  split at ht <;> cases ht
  exact h

theorem yields_add (payload : Payload) (place : Placement) :
    Yields (add payload place) (r, supply) (r.add supply payload place) id :=
  yields_editable_bind <| yields_check_bind fun _ _ => yields_check_bind fun _ _ => rfl

theorem run_forM_install (updates : List (ObjectId × Payload)) (r : Revision) (supply : Supply) :
    (updates.forM install).run (r, supply) =
      .ok () ({ r with table := (updates.foldl Revision.install (r.table, supply)).1 },
        (updates.foldl Revision.install (r.table, supply)).2) := by
  induction updates generalizing r supply with
  | nil => rfl
  | cons update updates ih => exact ih _ _

theorem run_forM_removeSubtree (ids : List ObjectId) (r : Revision) (supply : Supply) :
    (ids.forM fun id => change fun t => t.removeSubtree id).run (r, supply) =
      .ok () ({ r with table := ids.foldl Table.removeSubtree r.table }, supply) := by
  induction ids generalizing r with
  | nil => rfl
  | cons id ids ih => exact ih _

theorem yields_write (updates : List (ObjectId × Payload)) :
    Yields (write updates) (r, supply) (r.write supply updates) ((), ·) := by
  refine yields_editable_bind ?_
  rw [stage, mapM_check]
  simp only [bind_assoc, pure_bind]
  exact yields_check_bind fun staged _ => run_forM_install _ r supply

theorem yields_delete (id : ObjectId) :
    Yields (delete id) (r, supply) (r.delete id) fun r => ((), r, supply) := by
  refine yields_editable_bind ?_
  split <;> rfl

theorem yields_deleteSelected (sel : Selection) :
    Yields (deleteSelected sel) (r, supply) (r.deleteSelected sel) fun r => ((), r, supply) :=
  yields_editable_bind (run_forM_removeSubtree _ r supply)

theorem yields_relocate (id : ObjectId) (place : Placement) :
    Yields (relocate id place) (r, supply) (r.relocate id place) fun r => ((), r, supply) := by
  refine yields_editable_bind ?_
  unfold Table.relocate
  cases place.check r.table (some id) <;> rfl

theorem run_foldlM_copyNext (source : Table) (root : ObjectId) (ids : List ObjectId)
    (r : Revision) (copies : List (ObjectId × ObjectId)) (supply : Supply) :
    (ids.foldlM (copyNext source root) copies).run (r, supply) =
      let c := ids.foldl (Copying.next source root) ⟨r.table, copies, supply⟩
      .ok c.copies ({ r with table := c.table }, c.supply) := by
  induction ids generalizing r copies supply with
  | nil => rfl
  | cons id ids ih =>
      rw [List.foldlM_cons, List.foldl_cons, EStateM.run_bind]
      unfold copyNext Copying.next
      cases source.get? id with
      | none => exact ih r copies supply
      | some entry => exact ih _ _ _

theorem run_copySubtree (source : Table) (root : ObjectId) (r : Revision) (supply : Supply) :
    (copySubtree source root).run (r, supply) =
      let (copy, t, supply) := Revision.copySubtree source (r.table, supply) root
      .ok copy ({ r with table := t }, supply) := by
  rw [copySubtree, EStateM.run_bind, run_foldlM_copyNext]
  rfl

theorem run_mapM_copySubtree (source : Table) (roots : List ObjectId) (r : Revision)
    (supply : Supply) :
    (roots.mapM (copySubtree source)).run (r, supply) =
      let (copies, t, supply) := copySubtrees source (r.table, supply) roots
      .ok copies ({ r with table := t }, supply) := by
  induction roots generalizing r supply with
  | nil => rfl
  | cons root roots ih =>
      rw [List.mapM_cons, EStateM.run_bind, run_copySubtree]
      dsimp only
      rw [EStateM.run_bind, ih]
      rfl

theorem yields_copy (source : Revision) (id : ObjectId) :
    Yields (copy source id) (r, supply) (r.copy supply source id) fun c => c := by
  refine yields_editable_bind ?_
  split
  · exact run_copySubtree source.table id r supply
  · rfl

theorem yields_copySelected (source : Revision) (sel : Selection) :
    Yields (copySelected source sel) (r, supply) (r.copySelected supply source sel) fun c => c := by
  refine yields_editable_bind ?_
  unfold Yields
  rw [EStateM.run_bind, run_mapM_copySubtree]
  rfl

end Attempt
end Revision

end Schematic
