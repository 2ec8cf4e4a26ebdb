import Schematic.Proofs.Attribute.Field
import Schematic.Proofs.Store.Change

namespace Schematic

namespace Consensus

variable {α : Type} [SameValue α] [LawfulSame α] {values : List α} {value : α}

theorem exists_ofList_eq (hne : values ≠ []) (h : ∀ x ∈ values, same x value = true) :
    ∃ common, ofList values = consistent common ∧ same common value = true := by
  cases values with
  | nil => exact absurd rfl hne
  | cons first rest =>
      have hfirst := h first List.mem_cons_self
      have hall : rest.all (same first ·) = true := List.all_eq_true.mpr fun x hx =>
        LawfulSame.trans hfirst (LawfulSame.symm (h x (List.mem_cons_of_mem _ hx)))
      exact ⟨first, by rw [ofList_cons, if_pos hall], hfirst⟩

end Consensus

/-- What is kept in place of `stored` when a value is put into a field: the normal form of the
changed payload. With the old value it is what was held before, so nothing but the field is new in
it. -/
def Attribute.Puts (a : Attribute) (value : a.Value) (stored kept : Payload) : Prop :=
  ∃ old changed, a.read? stored = some old ∧ (a.change value).applyTo? stored = some changed ∧
    (a.change old).applyTo? changed.normalize = some stored ∧ same kept changed.normalize = true

namespace Revision

/-- An object that is selected, and of a kind that has the field. -/
def Offers (r : Revision) (sel : Selection) (a : Attribute) (id : ObjectId) : Prop :=
  sel.contains id = true ∧ ∃ kind ∈ a.kinds, r.kind? id = some kind

/-- What becomes of a revision when a value is put into a field of the selected objects. -/
structure BulkChanged (r : Revision) (sel : Selection) (a : Attribute) (value : a.Value)
    (next : Revision) : Prop where
  puts : ∀ id, r.Offers sel a id → ∃ stored kept, r.payload? id = some stored ∧
    next.payload? id = some kept ∧ a.Puts value stored kept
  state?_eq : ∀ id, ¬ r.Offers sel a id → next.state? id = r.state? id
  objects_eq : next.objects = r.objects
  location?_eq : ∀ id, next.location? id = r.location? id
  transient_eq : next.transient = r.transient
  notApplicable : (∀ id, ¬ r.Offers sel a id) → next.consensus sel a.read? = .notApplicable
  consistent : (∃ id, r.Offers sel a id) → ∃ common,
    next.consensus sel a.read? = .consistent common ∧ same common (a.normalize value) = true

variable {r next : Revision} {supply left : Supply} {sel : Selection} {a : Attribute}
  {value : a.Value} {id : ObjectId} {payload : Payload} {reason : ValidationError}

/-! ### What is asked for -/

theorem mem_updates_iff {change : Change} {update : ObjectId × Payload} :
    update ∈ r.updates sel change ↔ update.1 ∈ r.selected sel ∧
      ∃ stored, r.payload? update.1 = some stored ∧ change.applyTo? stored = some update.2 := by
  rw [updates, List.mem_filterMap]
  constructor
  · rintro ⟨id, hid, h⟩
    obtain ⟨changed, hchanged, rfl⟩ := Option.map_eq_some_iff.mp h
    exact ⟨hid, Option.bind_eq_some_iff.mp hchanged⟩
  · rintro ⟨hid, hchanged⟩
    exact ⟨update.1, hid, Option.map_eq_some_iff.mpr
      ⟨update.2, Option.bind_eq_some_iff.mpr hchanged, rfl⟩⟩

theorem offers_of_payload? (hsel : sel.contains id = true) (hpayload : r.payload? id = some payload)
    (hkind : payload.kind ∈ a.kinds) : r.Offers sel a id :=
  ⟨hsel, payload.kind, hkind, by rw [kind?, hpayload, Option.map_some]⟩

theorem offers_iff (wf : r.table.WellFormed) (value : a.Value) :
    r.Offers sel a id ↔ ∃ payload, (id, payload) ∈ r.updates sel (a.change value) := by
  simp only [mem_updates_iff, mem_selected_iff wf]
  constructor
  · rintro ⟨hsel, kind, hkind, hid⟩
    obtain ⟨stored, hstored, rfl⟩ := Option.map_eq_some_iff.mp hid
    obtain ⟨changed, hchanged⟩ : ∃ changed, (a.change value).applyTo? stored = some changed :=
      Option.isSome_iff_exists.mp (Attribute.isSome_applyTo?_iff.mpr hkind)
    have hcontains : r.contains id = true := by
      obtain ⟨entry, hentry, -⟩ := payload?_eq_some_iff.mp hstored
      exact Option.isSome_iff_exists.mpr ⟨entry, hentry⟩
    exact ⟨changed, ⟨hcontains, hsel⟩, stored, hstored, hchanged⟩
  · rintro ⟨payload, ⟨-, hsel⟩, stored, hstored, hchanged⟩
    exact offers_of_payload? hsel hstored
      (Attribute.isSome_applyTo?_iff.mp (Option.isSome_iff_exists.mpr ⟨payload, hchanged⟩))

theorem updates_eq_nil_iff (wf : r.table.WellFormed) (value : a.Value) :
    r.updates sel (a.change value) = [] ↔ ∀ id, ¬ r.Offers sel a id := by
  simp only [offers_iff wf value, List.eq_nil_iff_forall_not_mem, Prod.forall, not_exists]

/-! ### What is answered -/

theorem vet_of_mem_updates {update : ObjectId × Payload} (hr : r.table.Sound supply)
    (h : update ∈ r.updates sel (a.change value)) :
    vet r.table update =
      ((a.check value).mapError .invalidData).map fun _ => (update.1, update.2.normalize) := by
  obtain ⟨-, stored, hstored, hchanged⟩ := mem_updates_iff.mp h
  have hkind := Change.kind_applyTo? hchanged
  have hchildren := isContainer_of_hasChildren hr.wellFormed hstored
  obtain ⟨entry, hentry, rfl⟩ := payload?_eq_some_iff.mp hstored
  have hvalid := (Payload.accept_eq_ok_iff.mp (hr.issued hentry).accept_eq).1
  have hcontainer : (!update.2.kind.isContainer && r.table.hasChildren update.1) = false := by
    rw [hkind]
    cases hlist : r.table.hasChildren update.1 with
    | false => rw [Bool.and_false]
    | true => rw [hchildren hlist, Bool.not_true, Bool.false_and]
  unfold vet
  rw [hentry]
  simp only [hcontainer, Bool.false_eq_true, if_false]
  rw [acceptPayload, Payload.accept, Attribute.validate_of_applyTo? hvalid hchanged]
  cases a.check value <;> rfl

theorem apply_eq_error (hr : r.table.Sound supply) (htransient : r.transient = true)
    (hoffers : ∃ id, r.Offers sel a id) (hcheck : a.check value = .error reason) :
    r.apply supply sel (a.change value) = .error (.invalidData reason) := by
  rw [apply, write_eq htransient]
  cases hupdates : r.updates sel (a.change value) with
  | nil =>
      obtain ⟨id, hid⟩ := hoffers
      exact absurd hid ((updates_eq_nil_iff hr.wellFormed value).mp hupdates id)
  | cons update updates =>
      have hfirst : vet r.table update = .error (.invalidData reason) := by
        rw [vet_of_mem_updates hr (hupdates ▸ List.mem_cons_self), hcheck]
        rfl
      rw [List.mapM_cons, hfirst]
      rfl

theorem exists_apply_eq_ok (hr : r.table.Sound supply) (htransient : r.transient = true)
    (h : (∀ id, ¬ r.Offers sel a id) ∨ a.check value = .ok ()) :
    ∃ next left, r.apply supply sel (a.change value) = .ok (next, left) := by
  have hvet : ∀ update ∈ r.updates sel (a.change value),
      vet r.table update = .ok (update.1, update.2.normalize) := by
    intro update hupdate
    rcases h with hnone | hcheck
    · rw [(updates_eq_nil_iff hr.wellFormed value).mpr hnone] at hupdate
      cases hupdate
    · rw [vet_of_mem_updates hr hupdate, hcheck]
      rfl
  rw [apply, write_eq htransient, mapM_eq_ok hvet]
  exact ⟨_, _, rfl⟩

/-! ### What is changed -/

theorem exists_puts_of_apply (hr : r.table.Sound supply)
    (h : r.apply supply sel (a.change value) = .ok (next, left)) (hid : r.Offers sel a id) :
    ∃ stored kept, r.payload? id = some stored ∧ next.payload? id = some kept ∧
      a.Puts value stored kept := by
  obtain ⟨changed, hupdate⟩ := (offers_iff hr.wellFormed value).mp hid
  obtain ⟨-, stored, hstored, hchanged⟩ := mem_updates_iff.mp hupdate
  have hkind := Attribute.isSome_applyTo?_iff.mp (Option.isSome_iff_exists.mpr ⟨_, hchanged⟩)
  obtain ⟨old, hold⟩ := Option.isSome_iff_exists.mp (Attribute.isSome_read?_iff.mpr hkind)
  have hnormal : stored.normalize = stored := by
    obtain ⟨entry, hentry, rfl⟩ := payload?_eq_some_iff.mp hstored
    exact (Payload.accept_eq_ok_iff.mp (hr.issued hentry).accept_eq).2.symm
  have hagree : ∀ update ∈ r.updates sel (a.change value), update.1 = id →
      update.2 = changed := by
    rintro ⟨other, payload⟩ hmem rfl
    obtain ⟨-, stored', hstored', hpayload⟩ := mem_updates_iff.mp hmem
    rw [hstored, Option.some.injEq] at hstored'
    subst hstored'
    exact Option.some.inj (hpayload.symm.trans hchanged)
  obtain ⟨kept, hkept, hsame⟩ := exists_payload?_of_write hr h hupdate hagree
  exact ⟨stored, kept, hstored, hkept, old, changed, hold, hchanged,
    Attribute.applyTo?_read? hold (Attribute.applyTo?_normalize hnormal hchanged), hsame⟩

theorem state?_of_apply (hr : r.table.Sound supply)
    (h : r.apply supply sel (a.change value) = .ok (next, left)) (hid : ¬ r.Offers sel a id) :
    next.state? id = r.state? id := by
  refine state?_of_write h ?_
  rintro ⟨other, payload⟩ hupdate rfl
  exact hid ((offers_iff hr.wellFormed value).mpr ⟨payload, hupdate⟩)

theorem mem_selectedPayloads_iff :
    payload ∈ r.selectedPayloads sel ↔ ∃ id ∈ r.selected sel, r.payload? id = some payload :=
  List.mem_filterMap

theorem mem_values_iff (hr : r.table.Sound supply)
    (h : r.apply supply sel (a.change value) = .ok (next, left)) {x : a.Value} :
    x ∈ (next.selectedPayloads sel).filterMap a.read? ↔
      ∃ id kept, r.Offers sel a id ∧ next.payload? id = some kept ∧ a.read? kept = some x := by
  have hselected : next.selected sel = r.selected sel := by
    rw [selected, objects_of_write h, selected]
  simp only [List.mem_filterMap, mem_selectedPayloads_iff, hselected,
    mem_selected_iff hr.wellFormed]
  constructor
  · rintro ⟨kept, ⟨id, ⟨-, hsel⟩, hkept⟩, hx⟩
    refine ⟨id, kept, ?_, hkept, hx⟩
    by_contra hid
    rw [payload?, state?_of_apply hr h hid, ← payload?] at hkept
    exact hid (offers_of_payload? hsel hkept
      (Attribute.isSome_read?_iff.mp (Option.isSome_iff_exists.mpr ⟨x, hx⟩)))
  · rintro ⟨id, kept, hid, hkept, hx⟩
    obtain ⟨payload, hupdate⟩ := (offers_iff hr.wellFormed value).mp hid
    have hselected := (mem_selected_iff hr.wellFormed).mp (mem_updates_iff.mp hupdate).1
    exact ⟨kept, ⟨id, hselected, hkept⟩, hx⟩

/-- An object that was changed has the same as the new value in its field. -/
theorem exists_read?_of_apply (hr : r.table.Sound supply)
    (h : r.apply supply sel (a.change value) = .ok (next, left)) (hid : r.Offers sel a id) :
    ∃ kept x, next.payload? id = some kept ∧ a.read? kept = some x ∧
      same x (a.normalize value) = true := by
  obtain ⟨stored, kept, -, hkept, old, changed, -, hchanged, -, hsame⟩ :=
    exists_puts_of_apply hr h hid
  have hread := Attribute.same_read? (a := a) hsame
  rw [Attribute.read?_normalize hchanged] at hread
  cases hx : a.read? kept with
  | none =>
      rw [hx] at hread
      cases hread
  | some x =>
      rw [hx] at hread
      exact ⟨kept, x, hkept, hx, hread⟩

theorem bulkChanged_of_apply (hr : r.table.Sound supply)
    (h : r.apply supply sel (a.change value) = .ok (next, left)) :
    r.BulkChanged sel a value next where
  puts id hid := exists_puts_of_apply hr h hid
  state?_eq id hid := state?_of_apply hr h hid
  objects_eq := objects_of_write h
  location?_eq := location?_of_write h
  transient_eq := transient_of_write h
  notApplicable hnone := by
    have hvalues : (next.selectedPayloads sel).filterMap a.read? = [] := by
      refine List.eq_nil_iff_forall_not_mem.mpr fun x hx => ?_
      obtain ⟨id, -, hid, -⟩ := (mem_values_iff hr h).mp hx
      exact hnone id hid
    rw [consensus, hvalues]
    rfl
  consistent := by
    rintro ⟨id, hid⟩
    obtain ⟨kept, x, hkept, hx, -⟩ := exists_read?_of_apply hr h hid
    refine Consensus.exists_ofList_eq
      (List.ne_nil_of_mem ((mem_values_iff hr h).mpr ⟨id, kept, hid, hkept, hx⟩)) fun y hy => ?_
    obtain ⟨other, kept', hother, hkept', hy⟩ := (mem_values_iff hr h).mp hy
    obtain ⟨kept'', z, hkept'', hz, hsame⟩ := exists_read?_of_apply hr h hother
    rw [hkept', Option.some.injEq] at hkept''
    subst hkept''
    exact Option.some.inj (hz.symm.trans hy) ▸ hsame

end Revision

end Schematic
