import Schematic.Proofs.Store.Batch
import Schematic.Proofs.Store.Move
import Schematic.Proofs.Store.Removal
import Schematic.Proofs.Store.View

namespace Schematic

namespace Table

variable {t u v : Table} {id : ObjectId} {supply middle left : Supply}

/-! ### Growth -/

/-- A table to which an object has been added for each identity that was taken from the supply. -/
structure Grown (t : Table) (supply : Supply) (u : Table) (left : Supply) : Prop where
  remains : left.Remains supply
  get?_of_lt : ∀ id : ObjectId, id.value < supply.nextId → u.get? id = t.get? id
  contains_of_le : ∀ id : ObjectId, supply.nextId ≤ id.value → id.value < left.nextId →
    u.contains id = true

namespace Grown

theorem refl (t : Table) (supply : Supply) : t.Grown supply t supply where
  remains := .refl supply
  get?_of_lt _ _ := rfl
  contains_of_le _ hle hlt := absurd hlt (Nat.not_lt.mpr hle)

theorem trans (h : t.Grown supply u middle) (h' : u.Grown middle v left) :
    t.Grown supply v left where
  remains := h'.remains.trans h.remains
  get?_of_lt id hid :=
    (h'.get?_of_lt id (Nat.lt_of_lt_of_le hid h.remains.1)).trans (h.get?_of_lt id hid)
  contains_of_le id hle hlt := by
    by_cases hid : id.value < middle.nextId
    · rw [contains, h'.get?_of_lt id hid]
      exact h.contains_of_le id hle hid
    · exact h'.contains_of_le id (Nat.not_lt.mp hid) hlt

end Grown

theorem grown_insert (t : Table) (supply : Supply) (state : ObjectState)
    (parent before : Option ObjectId) (later : Nat) (hlater : supply.nextStamp ≤ later) :
    t.Grown supply (t.insert ⟨supply.nextId⟩ state parent before) ⟨supply.nextId + 1, later⟩ where
  remains := ⟨Nat.le_succ _, hlater⟩
  get?_of_lt id hid := by
    rw [get?_insert, if_neg]
    rintro rfl
    exact Nat.lt_irrefl _ hid
  contains_of_le id hle hlt := by
    have hid : ⟨supply.nextId⟩ = id := by
      cases id
      simp only [ObjectId.mk.injEq] at hle hlt ⊢
      omega
    rw [contains, get?_insert, if_pos hid]
    rfl

theorem grown_copySubtree {source : Table} (wf : source.WellFormed)
    (hid : source.contains id = true) (t : Table) (supply : Supply) :
    t.Grown supply (Revision.copySubtree source (t, supply) id).2.1
      (Revision.copySubtree source (t, supply) id).2.2 := by
  obtain ⟨c, hcopied, heq⟩ := Revision.copySubtree_eq wf hid t supply
  rw [heq]
  refine ⟨hcopied.edits.remains, fun x => hcopied.get?_of_lt, fun x hle hlt => ?_⟩
  rw [hcopied.supply_eq] at hlt
  -- The identity is that of the copy of the object with this place in the order of the subtree.
  have hindex : x.value - supply.nextId < (source.subtree id).length := by
    dsimp only at hlt
    omega
  obtain ⟨y, hy⟩ : ∃ y, (source.subtree id)[x.value - supply.nextId] = y := ⟨_, rfl⟩
  have hmem : y ∈ source.subtree id := hy ▸ List.getElem_mem hindex
  have hcopy : Revision.copyOf source id supply y = x := by
    rw [Revision.copyOf, ← hy, (wf.nodup_subtree hid).idxOf_getElem]
    cases x
    simp only [ObjectId.mk.injEq] at hle ⊢
    omega
  obtain ⟨entry, hentry⟩ := Option.isSome_iff_exists.mp (wf.contains_of_mem_subtree hmem)
  rw [contains, ← hcopy, hcopied.get?_copyOf hmem, hentry]
  rfl

theorem grown_copySubtrees {source : Table} (wf : source.WellFormed) {roots : List ObjectId}
    (hroots : ∀ root ∈ roots, source.contains root = true) (t : Table) (supply : Supply) :
    t.Grown supply (Revision.copySubtrees source (t, supply) roots).2.1
      (Revision.copySubtrees source (t, supply) roots).2.2 := by
  induction roots generalizing t supply with
  | nil => exact .refl t supply
  | cons root roots ih =>
      have hfirst := grown_copySubtree wf (hroots root List.mem_cons_self) t supply
      exact hfirst.trans (ih (fun x hx => hroots x (List.mem_cons_of_mem _ hx)) _ _)

end Table

namespace Revision

/-- Updates that give an object another instance: one of them has a payload for it whose normal form
is not the same as the payload that is held. -/
def Replaces (r : Revision) (updates : List (ObjectId × Payload)) (id : ObjectId) : Prop :=
  ∃ payload stored, (id, payload) ∈ updates ∧ r.payload? id = some stored ∧
    same payload.normalize stored = false

/-- What becomes of the objects of a revision while the objects `deleted` are taken away, with what
lies below them, and `updates` are written. -/
structure Changed (r : Revision) (supply : Supply) (deleted : List ObjectId)
    (updates : List (ObjectId × Payload)) (next : Revision) (left : Supply) : Prop where
  remains : left.Remains supply
  contains_iff : ∀ id : ObjectId, next.contains id = true ↔
    r.contains id = true ∧ id ∉ deleted.flatMap r.table.subtree ∨
      supply.nextId ≤ id.value ∧ id.value < left.nextId
  state?_eq : ∀ id, r.contains id = true → next.contains id = true → ¬ r.Replaces updates id →
    next.state? id = r.state? id
  stamp_le : ∀ id state, r.Replaces updates id → next.state? id = some state →
    supply.nextStamp ≤ state.stamp

variable {r next source : Revision} {supply left : Supply} {id : ObjectId} {t : Table × Supply}
  {deleted : List ObjectId} {updates changes : List (ObjectId × Payload)}

theorem not_replaces_nil : ¬ r.Replaces [] id := by
  rintro ⟨payload, stored, hmem, -⟩
  cases hmem

theorem Changed.of_state?_eq (hstate : ∀ x, next.state? x =
    if x ∈ deleted.flatMap r.table.subtree then none else r.state? x) :
    r.Changed supply deleted [] next supply where
  remains := .refl supply
  contains_iff id := by
    have hnone : ¬ (supply.nextId ≤ id.value ∧ id.value < supply.nextId) := by omega
    rw [contains_iff_exists_state?, contains_iff_exists_state?, hstate, or_iff_left hnone]
    split <;> simp_all
  state?_eq id _ hnext _ := by
    rw [contains_iff_exists_state?, hstate] at hnext
    rw [hstate]
    split
    · rename_i hgone
      simp [hgone] at hnext
    · rfl
  stamp_le _ _ hreplaces := absurd hreplaces not_replaces_nil

theorem Changed.of_same (hstate : ∀ x, next.state? x = r.state? x) :
    r.Changed supply [] [] next supply :=
  .of_state?_eq fun x => by rw [hstate, List.flatMap_nil, if_neg List.not_mem_nil]

theorem Changed.of_grown (hr : r.table.Sound supply) (hnext : next.table.Sound left)
    (h : r.table.Grown supply next.table left) : r.Changed supply [] [] next left where
  remains := h.remains
  contains_iff id := by
    rw [List.flatMap_nil, and_iff_left List.not_mem_nil]
    by_cases hid : id.value < supply.nextId
    · rw [contains, contains, Table.contains, h.get?_of_lt id hid, ← Table.contains]
      exact (or_iff_left fun hnew => absurd hid (Nat.not_lt.mpr hnew.1)).symm
    · have hle := Nat.not_lt.mp hid
      have hold : r.contains id = false := hr.not_contains hle
      rw [hold, or_iff_right Bool.false_ne_true, and_iff_right hle]
      refine ⟨fun hpresent => ?_, h.contains_of_le id hle⟩
      obtain ⟨entry, hentry⟩ := Option.isSome_iff_exists.mp hpresent
      exact hnext.minted hentry
  state?_eq id hid _ _ := by
    obtain ⟨entry, hentry⟩ := Option.isSome_iff_exists.mp hid
    rw [state?, h.get?_of_lt id (hr.minted hentry), ← state?]
  stamp_le _ _ hreplaces := absurd hreplaces not_replaces_nil

theorem changed_of_add {payload : Payload} {place : Placement} (hr : r.table.Sound supply)
    (h : r.add supply payload place = .ok (id, next, left)) :
    r.Changed supply [] [] next left := by
  have hnext := (edits_of_add h).sound hr hr
  obtain ⟨-, -, kept, -, hresult⟩ := add_eq_ok_iff.mp h
  cases hresult
  exact .of_grown hr hnext (Table.grown_insert _ _ _ _ _ _ (Nat.le_succ _))

theorem changed_of_copy {copy : ObjectId} (hsource : source.table.Sound supply)
    (hr : r.table.Sound supply) (h : r.copy supply source id = .ok (copy, next, left)) :
    r.Changed supply [] [] next left := by
  have hnext := (edits_of_copy hsource.wellFormed h).sound hsource hr
  obtain ⟨-, hid, hresult⟩ := copy_eq_ok_iff.mp h
  cases hresult
  exact .of_grown hr hnext (Table.grown_copySubtree hsource.wellFormed hid _ _)

theorem changed_of_copySelected {sel copies : Selection} (hsource : source.table.Sound supply)
    (hr : r.table.Sound supply) (h : r.copySelected supply source sel = .ok (copies, next, left)) :
    r.Changed supply [] [] next left := by
  have hnext := (edits_of_copySelected hsource.wellFormed h).sound hsource hr
  obtain ⟨-, hresult⟩ := copySelected_eq_ok_iff.mp h
  cases hresult
  refine .of_grown hr hnext (Table.grown_copySubtrees hsource.wellFormed (fun root hroot => ?_) _ _)
  exact ((mem_selectedRoots_iff hsource.wellFormed).mp hroot).1

theorem changed_of_delete (h : r.delete id = .ok next) :
    r.Changed supply [id] [] next supply := by
  obtain ⟨-, -, rfl⟩ := delete_eq_ok_iff.mp h
  refine .of_state?_eq fun x => ?_
  rw [state?, Table.get?_removeSubtree, List.flatMap_singleton, state?]
  split <;> rfl

theorem changed_of_deleteSelected {sel : Selection} (wf : r.table.WellFormed)
    (h : r.deleteSelected sel = .ok next) :
    r.Changed supply (r.selected sel) [] next supply := by
  obtain ⟨-, rfl⟩ := deleteSelected_eq_ok_iff.mp h
  refine .of_state?_eq fun x => ?_
  rw [state?, (wf.isPruned_foldl_removeSubtree (r.selected sel)).get?_eq, state?]
  simp only [List.elem_eq_mem, decide_eq_true_eq]
  split <;> rfl

theorem changed_of_relocate {place : Placement} (h : r.relocate id place = .ok next) :
    r.Changed supply [] [] next supply := by
  obtain ⟨-, -, rfl⟩ := relocate_eq_ok_iff.mp h
  exact .of_same (state?_move r.table _)

/-! ### Writing -/

@[simp] theorem place?_foldl_install (t : Table × Supply) (changes : List (ObjectId × Payload)) :
    (changes.foldl install t).1.place? id = t.1.place? id := by
  induction changes generalizing t with
  | nil => rfl
  | cons change changes ih => exact (ih (install t change)).trans Table.place?_setState

@[simp] theorem children_foldl_install (t : Table × Supply) (changes : List (ObjectId × Payload)) :
    (changes.foldl install t).1.children = t.1.children := by
  induction changes generalizing t with
  | nil => rfl
  | cons change changes ih => exact ih (install t change)

@[simp] theorem nextId_foldl_install (t : Table × Supply) (changes : List (ObjectId × Payload)) :
    (changes.foldl install t).2.nextId = t.2.nextId := by
  induction changes generalizing t with
  | nil => rfl
  | cons change changes ih => exact ih (install t change)

theorem nextStamp_le_foldl_install (t : Table × Supply) (changes : List (ObjectId × Payload)) :
    t.2.nextStamp ≤ (changes.foldl install t).2.nextStamp := by
  induction changes generalizing t with
  | nil => exact Nat.le_refl _
  | cons change changes ih => exact Nat.le_trans (Nat.le_succ _) (ih (install t change))

theorem get?_foldl_install_of_ne (t : Table × Supply) (h : ∀ change ∈ changes, change.1 ≠ id) :
    (changes.foldl install t).1.get? id = t.1.get? id := by
  induction changes generalizing t with
  | nil => rfl
  | cons change changes ih =>
      rw [List.foldl_cons, ih _ fun other hother => h other (List.mem_cons_of_mem _ hother)]
      exact (Table.get?_setState _ _ _ _).trans (if_neg (h change List.mem_cons_self))

theorem stamp_le_of_foldl_install (t : Table × Supply) {entry : Entry}
    (h : ∃ change ∈ changes, change.1 = id)
    (hentry : (changes.foldl install t).1.get? id = some entry) :
    t.2.nextStamp ≤ entry.state.stamp := by
  induction changes generalizing t with
  | nil => simp at h
  | cons first changes ih =>
      rw [List.foldl_cons] at hentry
      by_cases hlater : ∃ change ∈ changes, change.1 = id
      · exact Nat.le_of_succ_le (ih (install t first) hlater hentry)
      · have hlast : ∀ change ∈ changes, change.1 ≠ id := fun change hchange heq =>
          hlater ⟨change, hchange, heq⟩
        have hfirst : first.1 = id := by
          obtain ⟨change, hchange, heq⟩ := h
          rcases List.mem_cons.mp hchange with rfl | hmem
          · exact heq
          · exact absurd heq (hlast change hmem)
        rw [get?_foldl_install_of_ne _ hlast, install, Supply.stamp, Table.get?_setState,
          if_pos hfirst] at hentry
        obtain ⟨old, -, rfl⟩ := Option.map_eq_some_iff.mp hentry
        exact Nat.le_refl _

theorem exists_mem_filter_isNews_iff (h : updates.mapM (vet r.table) = .ok changes) :
    (∃ change ∈ changes.filter (isNews r.table), change.1 = id) ↔ r.Replaces updates id := by
  have hpayload : ∀ change ∈ changes, ∃ stored, r.payload? change.1 = some stored := by
    intro change hchange
    obtain ⟨entry, hentry⟩ :=
      Option.isSome_iff_exists.mp (contains_of_mapM_vet h hchange).1
    exact ⟨_, payload?_eq_some_iff.mpr ⟨entry, hentry, rfl⟩⟩
  have hmap := eq_map_of_mapM_vet h
  constructor
  · rintro ⟨change, hmem, rfl⟩
    obtain ⟨hchange, hnews⟩ := List.mem_filter.mp hmem
    obtain ⟨stored, hstored⟩ := hpayload change hchange
    rw [isNews_eq hstored, Bool.not_eq_true'] at hnews
    rw [hmap] at hchange
    obtain ⟨update, hupdate, rfl⟩ := List.mem_map.mp hchange
    exact ⟨update.2, stored, hupdate, hstored, hnews⟩
  · rintro ⟨payload, stored, hupdate, hstored, hdiffers⟩
    have hchange : (id, payload.normalize) ∈ changes := by
      rw [hmap]
      exact List.mem_map_of_mem hupdate
    refine ⟨_, List.mem_filter.mpr ⟨hchange, ?_⟩, rfl⟩
    have hnews : isNews r.table (id, payload.normalize) = !same payload.normalize stored :=
      isNews_eq hstored
    rw [hnews, hdiffers, Bool.not_false]

theorem nextId_of_write (h : r.write supply updates = .ok (next, left)) :
    left.nextId = supply.nextId := by
  obtain ⟨-, changes, -, hresult⟩ := write_eq_ok_iff.mp h
  cases hresult
  exact nextId_foldl_install (r.table, supply) _

theorem changed_of_write (h : r.write supply updates = .ok (next, left)) :
    r.Changed supply [] updates next left := by
  have hid := nextId_of_write h
  obtain ⟨-, changes, hchanges, hresult⟩ := write_eq_ok_iff.mp h
  cases hresult
  have hstaged : ∀ id, (∃ change ∈ changes.filter (isNews r.table), change.1 = id) ↔
      r.Replaces updates id := fun id => exists_mem_filter_isNews_iff hchanges
  refine ⟨⟨Nat.le_of_eq hid.symm, nextStamp_le_foldl_install (r.table, supply) _⟩, fun id => ?_,
    fun id _ _ hkept => ?_, fun id state hreplaces hstate => ?_⟩
  · have hnone : ¬ (supply.nextId ≤ id.value ∧ id.value < supply.nextId) := by omega
    rw [hid, or_iff_left hnone, List.flatMap_nil, and_iff_left List.not_mem_nil, contains, contains,
      Table.contains_iff, Table.contains_iff, place?_foldl_install]
  · have hne : ∀ change ∈ changes.filter (isNews r.table), change.1 ≠ id :=
      fun change hchange heq => hkept ((hstaged id).mp ⟨change, hchange, heq⟩)
    rw [state?, get?_foldl_install_of_ne (r.table, supply) hne, ← state?]
  · obtain ⟨entry, hentry, rfl⟩ := Option.map_eq_some_iff.mp hstate
    exact stamp_le_of_foldl_install (r.table, supply) ((hstaged id).mpr hreplaces) hentry

/-! What is written stays in its place. -/

theorem transient_of_write (h : r.write supply updates = .ok (next, left)) :
    next.transient = r.transient := by
  obtain ⟨-, changes, -, hresult⟩ := write_eq_ok_iff.mp h
  cases hresult
  rfl

theorem attachedTo_of_write (h : r.write supply updates = .ok (next, left))
    (place : Option ObjectId) : next.attachedTo place = r.attachedTo place := by
  obtain ⟨-, changes, -, hresult⟩ := write_eq_ok_iff.mp h
  cases hresult
  rw [attachedTo, Table.siblings, children_foldl_install, ← Table.siblings, attachedTo]

theorem objects_of_write (h : r.write supply updates = .ok (next, left)) :
    next.objects = r.objects := by
  obtain ⟨-, changes, -, hresult⟩ := write_eq_ok_iff.mp h
  cases hresult
  exact Table.preorder_congr (children_foldl_install (r.table, supply) _)

theorem location?_of_write (h : r.write supply updates = .ok (next, left)) (id : ObjectId) :
    next.location? id = r.location? id := by
  have hplace : next.table.place? id = r.table.place? id := by
    obtain ⟨-, changes, -, hresult⟩ := write_eq_ok_iff.mp h
    cases hresult
    exact place?_foldl_install (r.table, supply) _
  simp only [location?_eq, hplace, attachedTo_of_write h]

theorem state?_of_write (h : r.write supply updates = .ok (next, left))
    (hid : ∀ update ∈ updates, update.1 ≠ id) : next.state? id = r.state? id := by
  obtain ⟨-, changes, hchanges, hresult⟩ := write_eq_ok_iff.mp h
  cases hresult
  refine congrArg (Option.map Entry.state) (get?_foldl_install_of_ne (r.table, supply) ?_)
  intro change hchange
  have hmem := (List.mem_filter.mp hchange).1
  rw [eq_map_of_mapM_vet hchanges] at hmem
  obtain ⟨update, hupdate, rfl⟩ := List.mem_map.mp hmem
  exact hid update hupdate

end Revision

end Schematic
