import Schematic.Attribute.Bulk
import Schematic.Proofs.Store.Preorder

namespace Schematic

@[simp] theorem bind_eq_ok_iff {ε α β : Type} {x : Except ε α} {f : α → Except ε β} {b : β} :
    (x >>= f) = .ok b ↔ ∃ a, x = .ok a ∧ f a = .ok b := by
  cases x <;> simp [bind, Except.bind]

@[simp] theorem pure_eq_ok_iff {ε α : Type} {a b : α} : (pure a : Except ε α) = .ok b ↔ b = a := by
  rw [eq_comm (a := b)]
  exact ⟨Except.ok.inj, congrArg _⟩

@[simp] theorem ite_throw_eq_ok_iff {ε α : Type} {c : Prop} [Decidable c] {a b : α} {e : ε} :
    (if c then pure a else throw e : Except ε α) = .ok b ↔ c ∧ b = a := by
  split <;> rename_i h <;> simp [throw, throwThe, MonadExceptOf.throw, h]

@[simp] theorem map_eq_ok_iff {ε α β : Type} {x : Except ε α} {f : α → β} {b : β} :
    x.map f = .ok b ↔ ∃ a, x = .ok a ∧ f a = b := by
  cases x <;> simp [Except.map]

@[simp] theorem functor_map_eq_ok_iff {ε α β : Type} {x : Except ε α} {f : α → β} {b : β} :
    f <$> x = .ok b ↔ ∃ a, x = .ok a ∧ b = f a := by
  cases x <;> simp [Functor.map, Except.map, eq_comm]

@[simp] theorem mapError_eq_ok_iff {ε ε' α : Type} {x : Except ε α} {f : ε → ε'} {a : α} :
    x.mapError f = .ok a ↔ x = .ok a := by
  cases x <;> simp [Except.mapError]

theorem mapM_map {ε α β γ : Type} {f : α → Except ε β} {g : β → γ} (xs : List α) :
    xs.mapM (fun x => (f x).map g) = (xs.mapM f).map (List.map g) := by
  induction xs with
  | nil => rfl
  | cons x xs ih =>
      rw [List.mapM_cons, List.mapM_cons, ih]
      cases f x with
      | error e => rfl
      | ok y => cases xs.mapM f <;> rfl

theorem mapM_eq_ok {ε α β : Type} {f : α → Except ε β} {g : α → β} {xs : List α}
    (h : ∀ x ∈ xs, f x = .ok (g x)) : xs.mapM f = .ok (xs.map g) := by
  induction xs with
  | nil => rfl
  | cons x xs ih =>
      rw [List.mapM_cons, h x List.mem_cons_self, ih fun y hy => h y (List.mem_cons_of_mem _ hy)]
      rfl

theorem exists_of_mem_mapM {ε α β : Type} {f : α → Except ε β} {xs : List α} {ys : List β}
    (h : xs.mapM f = .ok ys) {y : β} (hy : y ∈ ys) : ∃ x ∈ xs, f x = .ok y := by
  induction xs generalizing ys with
  | nil =>
      cases h
      cases hy
  | cons x xs ih =>
      rw [List.mapM_cons, bind_eq_ok_iff] at h
      obtain ⟨z, hz, h⟩ := h
      rw [bind_eq_ok_iff] at h
      obtain ⟨zs, hzs, h⟩ := h
      cases h
      rcases List.mem_cons.mp hy with rfl | hy
      · exact ⟨x, by simp, hz⟩
      · obtain ⟨w, hw, hwy⟩ := ih hzs hy
        exact ⟨w, List.mem_cons_of_mem _ hw, hwy⟩

namespace Placement

variable {t : Table} {object : Option ObjectId} {place : Placement}

theorem fault?_eq_none_iff :
    place.fault? t object = none ↔
      (∀ id, object = some id → t.contains id = true) ∧
      (∀ p, place.parent = some p → t.contains p = true) ∧
      (∀ next, place.before = some next → t.contains next = true) ∧
      (∀ p, place.parent = some p → rejectsParent t object p = false) ∧
      ∀ next, place.before = some next → t.parent? next = place.parent := by
  unfold fault?
  simp only [Option.orElse_eq_orElse, Option.orElse_eq_or, Option.or_eq_none_iff,
    Option.map_eq_none_iff, Option.filter_eq_none_iff]
  simp

theorem check_eq_ok_iff : place.check t object = .ok () ↔ place.fault? t object = none := by
  unfold check
  split <;> simp_all

end Placement

namespace Revision

variable {r : Revision} {supply : Supply} {t : Table}

@[simp] theorem acceptPayload_eq_ok_iff {payload kept : Payload} :
    acceptPayload payload = .ok kept ↔ payload.accept = .ok kept :=
  mapError_eq_ok_iff

@[simp] theorem editable_eq_ok_iff : r.editable = .ok t ↔ r.transient = true ∧ r.table = t := by
  unfold editable
  split <;> simp_all

theorem add_eq_ok_iff {payload : Payload} {place : Placement}
    {result : ObjectId × Revision × Supply} :
    r.add supply payload place = .ok result ↔
      r.transient = true ∧ place.check r.table none = .ok () ∧
        ∃ kept, payload.accept = .ok kept ∧
          result = (⟨supply.nextId⟩,
            { r with
              table := r.table.insert ⟨supply.nextId⟩ ⟨supply.nextStamp, kept⟩ place.parent
                place.before },
            ⟨supply.nextId + 1, supply.nextStamp + 1⟩) := by
  simp [add, Supply.mint, Supply.stamp, Unique.exists_iff]

theorem delete_eq_ok_iff {id : ObjectId} {next : Revision} :
    r.delete id = .ok next ↔
      r.transient = true ∧ r.contains id = true ∧
        next = { r with table := r.table.removeSubtree id } := by
  simp [delete, contains]

theorem deleteSelected_eq_ok_iff {sel : Selection} {next : Revision} :
    r.deleteSelected sel = .ok next ↔
      r.transient = true ∧
        next = { r with table := (r.selected sel).foldl Table.removeSubtree r.table } := by
  simp [deleteSelected]

theorem relocate_eq_ok_iff {id : ObjectId} {place : Placement} {next : Revision} :
    r.relocate id place = .ok next ↔
      r.transient = true ∧ place.check r.table (some id) = .ok () ∧
        next = { r with table := r.table.move id place } := by
  simp [relocate, Table.relocate, Unique.exists_iff]

theorem copy_eq_ok_iff {source : Revision} {id : ObjectId}
    {result : ObjectId × Revision × Supply} :
    r.copy supply source id = .ok result ↔
      r.transient = true ∧ source.contains id = true ∧
        result = ((copySubtree source.table (r.table, supply) id).1,
          { r with table := (copySubtree source.table (r.table, supply) id).2.1 },
          (copySubtree source.table (r.table, supply) id).2.2) := by
  simp [copy]

theorem copySelected_eq_ok_iff {source : Revision} {sel : Selection}
    {result : Selection × Revision × Supply} :
    r.copySelected supply source sel = .ok result ↔
      r.transient = true ∧
        result = (.ofList (copySubtrees source.table (r.table, supply)
            (source.selectedRoots sel)).1,
          { r with
            table := (copySubtrees source.table (r.table, supply) (source.selectedRoots sel)).2.1 },
          (copySubtrees source.table (r.table, supply) (source.selectedRoots sel)).2.2) := by
  simp [copySelected]

/-! ### Staging -/

/-- What becomes of one update by itself: the payload that would be kept, or the reason why the
update is refused. -/
def vet (t : Table) (update : ObjectId × Payload) : Except StoreError (ObjectId × Payload) :=
  match t.get? update.1 with
  | none => .error (.noSuchObject update.1)
  | some _ =>
      if !update.2.kind.isContainer && t.hasChildren update.1 then
        .error (.invalidParent update.1)
      else (acceptPayload update.2).map fun kept => (update.1, kept)

/-- Whether a payload differs from the one that a table holds. -/
def isNews (t : Table) (change : ObjectId × Payload) : Bool :=
  !(t.get? change.1).any fun entry => same change.2 entry.state.payload

theorem vet_eq_ok_iff {update change : ObjectId × Payload} :
    vet t update = .ok change ↔
      t.contains update.1 = true ∧
        (t.hasChildren update.1 = true → update.2.kind.isContainer = true) ∧
          change.1 = update.1 ∧ update.2.accept = .ok change.2 := by
  unfold vet Table.contains
  cases t.get? update.1 with
  | none => simp
  | some entry =>
      simp only [Option.isSome_some, true_and]
      split
      · rename_i h
        simp only [Bool.and_eq_true, Bool.not_eq_true'] at h
        simp [h]
      · rename_i h
        simp only [Bool.and_eq_true, Bool.not_eq_true', not_and, Bool.not_eq_true] at h
        simp only [map_eq_ok_iff, acceptPayload_eq_ok_iff]
        constructor
        · rintro ⟨kept, hkept, rfl⟩
          refine ⟨fun hchildren => ?_, rfl, hkept⟩
          cases hkind : update.2.kind.isContainer with
          | true => rfl
          | false => simp [h hkind] at hchildren
        · rintro ⟨-, hid, hkept⟩
          exact ⟨change.2, hkept, by rw [← hid]⟩

theorem stageOne_eq (t : Table) (update : ObjectId × Payload) :
    stageOne t update.1 update.2 =
      (vet t update).map fun change => if isNews t change then some change else none := by
  unfold stageOne vet isNews
  cases hentry : t.get? update.1 with
  | none => rfl
  | some entry =>
      simp only
      split
      · rfl
      · cases acceptPayload update.2 with
        | error e => rfl
        | ok kept => cases hsame : same kept entry.state.payload <;>
            simp [Except.map, bind, Except.bind, pure, Except.pure, hentry, hsame]

theorem stage_eq (t : Table) (updates : List (ObjectId × Payload)) :
    stage t updates = (updates.mapM (vet t)).map (List.filter (isNews t)) := by
  unfold stage
  simp only [stageOne_eq, mapM_map]
  cases updates.mapM (vet t) with
  | error e => rfl
  | ok changes =>
      change Except.ok ((changes.map _).filterMap _) = _
      rw [List.filterMap_map, ← List.filterMap_eq_filter]
      rfl

def withTable (r : Revision) (t : Table × Supply) : Revision × Supply :=
  ({ r with table := t.1 }, t.2)

theorem write_eq_ok_iff {updates : List (ObjectId × Payload)} {result : Revision × Supply} :
    r.write supply updates = .ok result ↔
      r.transient = true ∧ ∃ changes, updates.mapM (vet r.table) = .ok changes ∧
        result =
          r.withTable ((changes.filter (isNews r.table)).foldl install (r.table, supply)) := by
  simp [write, stage_eq, withTable]

end Revision

/-! ### Locations -/

theorem Revision.location?_eq (r : Revision) (id : ObjectId) : r.location? id =
    (r.table.place? id).bind fun place =>
      ((r.attachedTo place).idxOf? id).map fun index => (place, index) := by
  unfold location? Table.position? Table.place? attachedTo
  cases hentry : r.table.get? id with
  | none => rfl
  | some entry => cases hindex : (r.table.siblings entry.parent).idxOf? id <;> simp [hindex]

namespace Table.WellFormed

variable {r : Revision} (wf : r.table.WellFormed)

include wf

theorem location?_eq_some_iff {id : ObjectId} {place : Option ObjectId} {index : Nat} :
    r.location? id = some (place, index) ↔
      r.table.place? id = some place ∧ (r.attachedTo place)[index]? = some id := by
  have hindex : ∀ place, (r.attachedTo place).idxOf? id = some index ↔
      (r.attachedTo place)[index]? = some id := fun place =>
    idxOf?_eq_some_iff_of_nodup (wf.nodup_siblings place)
  rw [Revision.location?_eq, Option.bind_eq_some_iff]
  simp only [Option.map_eq_some_iff, Prod.mk.injEq]
  constructor
  · rintro ⟨place, hplace, i, hi, rfl, rfl⟩
    exact ⟨hplace, (hindex place).mp hi⟩
  · rintro ⟨hplace, hi⟩
    exact ⟨place, hplace, index, (hindex place).mpr hi, rfl, rfl⟩

theorem exists_location?_eq_some {id : ObjectId} (hid : r.contains id = true) :
    ∃ place index, r.location? id = some (place, index) := by
  obtain ⟨place, hplace⟩ := contains_iff.mp hid
  obtain ⟨index, hindex⟩ := List.getElem?_of_mem (wf.mem_siblings.mpr hplace)
  exact ⟨place, index, wf.location?_eq_some_iff.mpr ⟨hplace, hindex⟩⟩

end Table.WellFormed

end Schematic
