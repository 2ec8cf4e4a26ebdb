import Schematic.Proofs.Payload.NormalForm
import Schematic.Proofs.Session.Effects
import Schematic.Proofs.Session.Live

namespace Schematic

namespace Revision

/-- Others are attached to the object, and would not be attached to a component any more. -/
def Orphans (r : Revision) (id : ObjectId) (payload : Payload) : Prop :=
  r.attachedTo (some id) ≠ [] ∧ payload.kind ≠ .component

/-- What a payload that is written to an object leaves of a revision, where `live` are the instances
that were there before. -/
structure Written (r : Revision) (live : Set ObjectState) (id : ObjectId) (payload : Payload)
    (next : Revision) : Prop where
  same_payload : ∃ kept, next.payload? id = some kept ∧ same kept payload.normalize = true
  kind_eq : next.kind? id = some payload.kind
  payloadOfKind_eq : ∀ kind, next.payloadOfKind? id kind =
    if kind = payload.kind then next.payload? id else none
  state_eq_iff : ∀ stored, r.state? id = some stored →
    (next.state? id = some stored ↔ same payload.normalize stored.payload = true)
  state_new : next.state? id ≠ r.state? id →
    ∃ state, next.state? id = some state ∧ ∀ held ∈ live, held.stamp ≠ state.stamp
  state_of_ne : ∀ other, other ≠ id → next.state? other = r.state? other
  objects_eq : next.objects = r.objects
  attachedTo_eq : ∀ parent, next.attachedTo parent = r.attachedTo parent
  location_eq : ∀ other, next.location? other = r.location? other
  transient_eq : next.transient = r.transient

variable {r next : Revision} {supply left : Supply} {id : ObjectId} {payload : Payload}
  {stored : ObjectState} {live : Set ObjectState}

theorem orphans_iff : r.Orphans id payload ↔
    (!payload.kind.isContainer && r.table.hasChildren id) = true := by
  simp [Orphans, attachedTo, Table.hasChildren, ObjectKind.isContainer, and_comm]

theorem write_singleton_of_orphans (htransient : r.transient = true) (hid : r.contains id = true)
    (h : r.Orphans id payload) :
    r.write supply [(id, payload)] = .error (.invalidParent id) := by
  obtain ⟨entry, hentry⟩ := Option.isSome_iff_exists.mp hid
  rw [write_singleton_eq htransient, vet, hentry]
  exact congrArg (Except.map _) (if_pos (orphans_iff.mp h))

theorem write_singleton_of_not_orphans (htransient : r.transient = true)
    (hid : r.contains id = true) (h : ¬ r.Orphans id payload) :
    r.write supply [(id, payload)] = (acceptPayload payload).map fun kept =>
      r.withTable (settle (r.table, supply) (id, kept)) := by
  obtain ⟨entry, hentry⟩ := Option.isSome_iff_exists.mp hid
  rw [orphans_iff] at h
  rw [write_singleton_eq htransient, vet, hentry]
  dsimp only
  rw [if_neg h]
  cases acceptPayload payload <;> rfl

theorem state?_settle (hstored : r.state? id = some stored) (kept : Payload) :
    (r.withTable (settle (r.table, supply) (id, kept))).1.state? id =
      some (if same kept stored.payload then stored else ⟨supply.nextStamp, kept⟩) := by
  have hnews : isNews r.table (id, kept) = !same kept stored.payload :=
    isNews_eq (by rw [payload?, hstored, Option.map_some])
  rw [settle, hnews]
  cases same kept stored.payload with
  | true => exact hstored
  | false =>
      obtain ⟨entry, hentry, -⟩ := Option.map_eq_some_iff.mp hstored
      change Option.map Entry.state ((r.table.setState id ⟨supply.nextStamp, kept⟩).get? id) = _
      rw [Table.get?_setState, if_pos rfl, hentry]
      rfl

/-- An object has a new instance after a write just where its payload is not the same. -/
theorem state?_of_write_singleton (h : r.write supply [(id, payload)] = .ok (next, left))
    (hstored : r.state? id = some stored) :
    next.state? id = some
      (if same payload.normalize stored.payload then stored
        else ⟨supply.nextStamp, payload.normalize⟩) := by
  obtain ⟨htransient, -⟩ := write_eq_ok_iff.mp h
  rw [write_singleton_eq htransient, map_eq_ok_iff] at h
  obtain ⟨change, hvet, hnext⟩ := h
  obtain ⟨-, -, hid, hkept⟩ := vet_eq_ok_iff.mp hvet
  have hchange : change = (id, payload.normalize) :=
    Prod.ext hid (Payload.accept_eq_ok_iff.mp hkept).2
  rw [hchange] at hnext
  rw [← state?_settle hstored, hnext]

theorem written_of_write (hlive : ∀ state ∈ live, state.stamp < supply.nextStamp)
    (hr : r.state? id = some stored) (hstored : stored ∈ live)
    (hvalid : payload.validate = .ok ())
    (h : r.write supply [(id, payload)] = .ok (next, left)) : r.Written live id payload next := by
  have hself : same payload.normalize payload.normalize = true :=
    Payload.same_self_of_validate (Payload.validate_normalize hvalid)
  have hstate := state?_of_write_singleton h hr
  -- The instance that stays may differ from the normal form in the sign of a zero.
  obtain ⟨kept, hkept, hsame⟩ : ∃ kept, next.payload? id = some kept ∧
      same kept payload.normalize = true := by
    rw [payload?, hstate, Option.map_some]
    refine ⟨_, rfl, ?_⟩
    split
    · rename_i heq
      exact LawfulSame.symm heq
    · exact hself
  have hkind : kept.kind = payload.kind :=
    (Payload.same_iff.mp hsame).1.trans payload.kind_normalize
  refine {
    same_payload := ⟨kept, hkept, hsame⟩
    kind_eq := by rw [kind?, hkept, Option.map_some, hkind]
    payloadOfKind_eq := fun kind => ?_
    state_eq_iff := fun other hother => ?_
    state_new := fun hne => ?_
    state_of_ne := fun other hne => state?_of_write h (by simp [hne.symm])
    objects_eq := objects_of_write h
    attachedTo_eq := attachedTo_of_write h
    location_eq := location?_of_write h
    transient_eq := transient_of_write h }
  · rw [payloadOfKind?, hkept, Option.bind_some, Payload.ofKind?, hkind]
    simp only [eq_comm]
  · obtain rfl : stored = other := Option.some.inj (hr.symm.trans hother)
    rw [hstate, Option.some.injEq]
    split
    · rename_i heq
      exact iff_of_true rfl heq
    · rename_i hdiffers
      refine iff_of_false (fun heq => ?_) hdiffers
      exact absurd (congrArg ObjectState.stamp heq) (Nat.ne_of_gt (hlive stored hstored))
  · refine ⟨_, hstate, fun held hheld => ?_⟩
    rw [hstate, hr] at hne
    rw [if_neg fun heq => hne (congrArg some (if_pos heq))]
    exact Nat.ne_of_lt (hlive held hheld)

end Revision

namespace Session

variable {s : Session} {r : Revision}

theorem step_write_of_error {name : String} {updates : List (ObjectId × Payload)} {e : StoreError}
    (hr : s.revision? name = some r) (hwrite : r.write s.supply updates = .error e) :
    s.step (.write name updates) = (.error (.store e), s) := by
  simp only [step, perform, ofStore, revision_eq_ok_iff.mpr hr, hwrite, bind, Except.bind,
    Except.mapError]

/-- A payload is written to an object that is there unless others would be orphaned, which is found
out first, or it is not valid. What is not written changes nothing; what is written is there
afterwards in its normal form, and nothing else is different. -/
theorem Reachable.write_outcome (h : s.Reachable) {name : String} (hr : s.revision? name = some r)
    (htransient : r.transient = true) (id : ObjectId) (hid : r.contains id = true)
    (payload : Payload) :
    (s.step (.write name [(id, payload)]) = (.error (.store (.invalidParent id)), s) ↔
      r.Orphans id payload) ∧
    (∀ reason, s.step (.write name [(id, payload)]) = (.error (.store (.invalidData reason)), s) ↔
      ¬ r.Orphans id payload ∧ payload.validate = .error reason) ∧
    ((∃ answer, (s.step (.write name [(id, payload)])).1 = .ok answer) ↔
      ¬ r.Orphans id payload ∧ payload.validate = .ok ()) ∧
    ∀ answer after, s.step (.write name [(id, payload)]) = (.ok answer, after) →
      ∃ next left, after = s.update name (next, left) ∧ r.Written s.live id payload next := by
  by_cases horphans : r.Orphans id payload
  · rw [step_write_of_error hr (Revision.write_singleton_of_orphans htransient hid horphans)]
    simp [horphans]
  have hwrite : r.write s.supply [(id, payload)] = _ :=
    Revision.write_singleton_of_not_orphans htransient hid horphans
  cases hvalid : payload.validate with
  | error reason =>
      rw [Revision.acceptPayload, Payload.accept_eq_error_iff.mpr hvalid] at hwrite
      rw [step_write_of_error hr hwrite]
      simp [horphans]
  | ok _ =>
      rw [Revision.acceptPayload_eq_ok_iff.mpr (Payload.accept_eq_ok_iff.mpr ⟨hvalid, rfl⟩)]
        at hwrite
      obtain ⟨stored, hstored⟩ := Revision.contains_iff_exists_state?.mp hid
      have hlive : ∀ state ∈ s.live, state.stamp < s.supply.nextStamp := by
        rintro state ⟨other, x, hholds⟩
        exact h.stamp_lt hholds
      have hwritten := Revision.written_of_write hlive hstored ⟨name, id, r, hr, hstored⟩ hvalid
        hwrite
      rw [(Performs.write hr hwrite).step_eq]
      refine ⟨iff_of_false (by simp) horphans, fun reason => iff_of_false (by simp) (by simp),
        iff_of_true ⟨.done, rfl⟩ ⟨horphans, rfl⟩, fun answer after hafter => ?_⟩
      cases hafter
      exact ⟨_, _, rfl, hwritten⟩

theorem write_outcome_nested :
    ∃ r, nested.revision? "b" = some r ∧ r.transient = true ∧ r.contains ⟨1⟩ = true ∧
      r.contains ⟨2⟩ = true ∧
      nested.step (.write "b" [(⟨1⟩, .text { color := 21 })]) =
        (.error (.store (.invalidParent ⟨1⟩)), nested) ∧
      nested.step (.write "b" [(⟨2⟩, .net { color := 21 })]) =
        (.error (.store (.invalidData (.outOfRange "color" 21 21))), nested) ∧
      ∃ next left, nested.step (.write "b" [(⟨2⟩, .net { color := 20 })]) =
          (.ok .done, nested.update "b" (next, left)) ∧
        r.Written nested.live ⟨2⟩ (.net { color := 20 }) next := by
  have hr : nested.revision? "b" = some _ := rfl
  obtain ⟨hparent, -⟩ := reachable_nested.write_outcome hr rfl ⟨1⟩ rfl (.text { color := 21 })
  obtain ⟨-, hdata, -⟩ := reachable_nested.write_outcome hr rfl ⟨2⟩ rfl (.net { color := 21 })
  obtain ⟨-, -, -, hdone⟩ :=
    reachable_nested.write_outcome hr rfl ⟨2⟩ rfl (.net { color := 20 })
  obtain ⟨next, left, hafter, hwritten⟩ := hdone .done _ rfl
  refine ⟨_, hr, rfl, rfl, rfl, hparent.mpr ⟨by decide, by decide⟩, (hdata _).mpr ⟨?_, rfl⟩,
    next, left, Prod.ext rfl hafter, hwritten⟩
  rintro ⟨hattached, -⟩
  exact hattached rfl

end Session

end Schematic
