import Schematic.Proofs.Store.Batch

namespace Schematic

@[simp] theorem bind_eq_error_iff {ε α β : Type} {x : Except ε α} {f : α → Except ε β} {e : ε} :
    (x >>= f) = .error e ↔ x = .error e ∨ ∃ a, x = .ok a ∧ f a = .error e := by
  cases x <;> simp [bind, Except.bind]

@[simp] theorem map_eq_error_iff {ε α β : Type} {x : Except ε α} {f : α → β} {e : ε} :
    x.map f = .error e ↔ x = .error e := by
  cases x <;> simp [Except.map]

@[simp] theorem functor_map_eq_error_iff {ε α β : Type} {x : Except ε α} {f : α → β} {e : ε} :
    f <$> x = .error e ↔ x = .error e :=
  map_eq_error_iff

@[simp] theorem mapError_eq_error_iff {ε ε' α : Type} {x : Except ε α} {f : ε → ε'} {e' : ε'} :
    x.mapError f = .error e' ↔ ∃ e, x = .error e ∧ f e = e' := by
  cases x <;> simp [Except.mapError]

@[simp] theorem pure_ne_error {ε α : Type} {a : α} {e : ε} : (pure a : Except ε α) ≠ .error e := by
  intro h
  cases h

@[simp] theorem ite_throw_eq_error_iff {ε α : Type} {c : Prop} [Decidable c] {a : α} {e e' : ε} :
    (if c then pure a else throw e : Except ε α) = .error e' ↔ ¬ c ∧ e' = e := by
  split
  · rename_i h
    simp [pure_ne_error, h]
  · rename_i h
    simp [throw, throwThe, MonadExceptOf.throw, h, eq_comm]

theorem mapM_eq_error_iff {ε α β : Type} {f : α → Except ε β} {xs : List α} {e : ε} :
    xs.mapM f = .error e ↔ ∃ front x back, xs = front ++ x :: back ∧
      (∀ y ∈ front, ∀ reason, f y ≠ .error reason) ∧ f x = .error e := by
  induction xs with
  | nil =>
      refine iff_of_false pure_ne_error ?_
      rintro ⟨front, x, back, hsplit, -⟩
      cases front <;> cases hsplit
  | cons x xs ih =>
      rw [List.mapM_cons, bind_eq_error_iff]
      constructor
      · rintro (hx | ⟨y, hy, hrest⟩)
        · exact ⟨[], x, xs, rfl, by simp, hx⟩
        · obtain hrest | ⟨ys, -, hpure⟩ := bind_eq_error_iff.mp hrest
          · obtain ⟨front, z, back, rfl, hfront, hz⟩ := ih.mp hrest
            refine ⟨x :: front, z, back, rfl, ?_, hz⟩
            rintro w hw reason hreason
            rcases List.mem_cons.mp hw with rfl | hw
            · simp [hy] at hreason
            · exact hfront w hw reason hreason
          · exact absurd hpure pure_ne_error
      · rintro ⟨front, z, back, hsplit, hfront, hz⟩
        cases front with
        | nil =>
            cases hsplit
            exact .inl hz
        | cons w front =>
            cases hsplit
            have hrest : (front ++ z :: back).mapM f = .error e :=
              ih.mpr ⟨front, z, back, rfl, fun y hy => hfront y (List.mem_cons_of_mem _ hy), hz⟩
            cases hx : f x with
            | error reason => exact absurd hx (hfront x List.mem_cons_self reason)
            | ok y => exact .inr ⟨y, rfl, bind_eq_error_iff.mpr (.inl hrest)⟩

@[simp] theorem Payload.accept_eq_error_iff {payload : Payload} {reason : ValidationError} :
    payload.accept = .error reason ↔ payload.validate = .error reason :=
  map_eq_error_iff

namespace Revision

variable {r source : Revision} {supply : Supply} {t : Table} {e : StoreError} {id : ObjectId}
  {place : Placement} {sel : Selection}

@[simp] theorem acceptPayload_eq_error_iff {payload : Payload} :
    acceptPayload payload = .error e ↔
      ∃ reason, payload.validate = .error reason ∧ e = .invalidData reason := by
  simp [acceptPayload, eq_comm (a := e)]

@[simp] theorem editable_eq_error_iff :
    r.editable = .error e ↔ r.transient = false ∧ e = .notTransient := by
  unfold editable
  cases r.transient <;> simp [eq_comm (a := e)]

theorem add_eq_error_iff {payload : Payload} :
    r.add supply payload place = .error e ↔ r.transient = false ∧ e = .notTransient ∨
      r.transient = true ∧ (place.check r.table none = .error e ∨
        place.check r.table none = .ok () ∧
          ∃ reason, payload.validate = .error reason ∧ e = .invalidData reason) := by
  simp [add, Unique.exists_iff]

theorem delete_eq_error_iff :
    r.delete id = .error e ↔ r.transient = false ∧ e = .notTransient ∨
      r.transient = true ∧ r.contains id = false ∧ e = .noSuchObject id := by
  simp [delete, contains]

theorem deleteSelected_eq_error_iff :
    r.deleteSelected sel = .error e ↔ r.transient = false ∧ e = .notTransient := by
  simp [deleteSelected]

theorem relocate_eq_error_iff :
    r.relocate id place = .error e ↔ r.transient = false ∧ e = .notTransient ∨
      r.transient = true ∧ place.check r.table (some id) = .error e := by
  simp [relocate, Table.relocate]

theorem copy_eq_error_iff :
    r.copy supply source id = .error e ↔ r.transient = false ∧ e = .notTransient ∨
      r.transient = true ∧ source.contains id = false ∧ e = .noSuchObject id := by
  simp [copy]

theorem copySelected_eq_error_iff :
    r.copySelected supply source sel = .error e ↔ r.transient = false ∧ e = .notTransient := by
  simp [copySelected]

/-! ### Updates -/

/-- What is wrong with one update: the first of these that applies. -/
inductive UpdateFault (r : Revision) : ObjectId × Payload → StoreError → Prop
  | absent {id : ObjectId} {payload : Payload} (hid : r.contains id = false) :
      UpdateFault r (id, payload) (.noSuchObject id)
  /-- Something is attached to the object, which would be a container no longer. -/
  | attached {id child : ObjectId} {payload : Payload} (hid : r.contains id = true)
      (hkind : payload.kind.isContainer = false) (hchild : r.table.parent? child = some id) :
      UpdateFault r (id, payload) (.invalidParent id)
  | invalid {id : ObjectId} {payload : Payload} {reason : ValidationError}
      (hid : r.contains id = true)
      (hkind : payload.kind.isContainer = true ∨ ∀ child, r.table.parent? child ≠ some id)
      (hpayload : payload.validate = .error reason) :
      UpdateFault r (id, payload) (.invalidData reason)

def FirstFault (r : Revision) (updates : List (ObjectId × Payload)) (e : StoreError) : Prop :=
  ∃ front update back, updates = front ++ update :: back ∧
    (∀ other ∈ front, ∀ reason, ¬ r.UpdateFault other reason) ∧ r.UpdateFault update e

theorem vet_eq_error_iff (wf : r.table.WellFormed) {update : ObjectId × Payload} :
    vet r.table update = .error e ↔ r.UpdateFault update e := by
  obtain ⟨id, payload⟩ := update
  have hfault : (!payload.kind.isContainer && r.table.hasChildren id) = true ↔
      payload.kind.isContainer = false ∧ ∃ child, r.table.parent? child = some id := by
    rw [Bool.and_eq_true, Bool.not_eq_true', wf.hasChildren_iff]
  unfold vet
  cases hentry : r.table.get? id with
  | none =>
      have hid : r.contains id = false := by rw [contains, Table.contains, hentry]; rfl
      constructor
      · intro h
        cases h
        exact .absent hid
      · intro h
        cases h <;> simp_all
  | some entry =>
      have hid : r.contains id = true := by rw [contains, Table.contains, hentry]; rfl
      dsimp only
      constructor
      · intro h
        split at h
        · rename_i hwrong
          obtain ⟨hkind, child, hchild⟩ := hfault.mp hwrong
          cases h
          exact .attached hid hkind hchild
        · rename_i hright
          obtain ⟨reason, hpayload, rfl⟩ := acceptPayload_eq_error_iff.mp (map_eq_error_iff.mp h)
          rw [hfault, not_and_or, not_exists, Bool.not_eq_false] at hright
          exact .invalid hid hright hpayload
      · intro h
        cases h with
        | absent hnone => simp [hid] at hnone
        | attached _ hkind hchild => exact if_pos (hfault.mpr ⟨hkind, _, hchild⟩)
        | invalid _ hkind hpayload =>
            refine (if_neg ?_).trans
              (map_eq_error_iff.mpr (acceptPayload_eq_error_iff.mpr ⟨_, hpayload, rfl⟩))
            rwa [hfault, not_and_or, not_exists, Bool.not_eq_false]

theorem write_eq_error_iff (wf : r.table.WellFormed) {updates : List (ObjectId × Payload)} :
    r.write supply updates = .error e ↔ r.transient = false ∧ e = .notTransient ∨
      r.transient = true ∧ r.FirstFault updates e := by
  cases htransient : r.transient with
  | false => simp [write, htransient]
  | true =>
      rw [write_eq htransient, map_eq_error_iff, mapM_eq_error_iff]
      simp [vet_eq_error_iff wf, FirstFault]

end Revision

end Schematic
