import Schematic.Proofs.Store.Change

namespace Schematic

namespace Table

variable {t : Table} {state : ObjectState}

theorem mem_states_iff :
    state ∈ t.states ↔ ∃ id entry, t.get? id = some entry ∧ entry.state = state := by
  simp only [states, List.mem_map, Prod.exists, Std.ExtTreeMap.mem_toList_iff_getElem?_eq_some]
  rfl

/-- Of the instances with stamps from `bound` on, no two objects hold the same. -/
def Apart (t : Table) (bound : Nat) : Prop :=
  ∀ (x y : ObjectId) (ex ey : Entry), t.get? x = some ex → t.get? y = some ey →
    bound ≤ ex.state.stamp → ex.state.stamp = ey.state.stamp → x = y

end Table

theorem Edits.state_cases {source : Table} {a b : Table × Supply} (h : Edits source a b)
    {id : ObjectId} {entry : Entry} (hentry : b.1.get? id = some entry) :
    (∃ old, a.1.get? id = some old ∧ old.state = entry.state) ∨
      (∃ original shared, source.get? original = some shared ∧ shared.state = entry.state) ∨
        a.2.nextStamp ≤ entry.state.stamp := by
  induction h generalizing entry with
  | refl => exact .inl ⟨entry, hentry, rfl⟩
  | @tail b c hedits hedit ih =>
      obtain ⟨kept, hkept⟩ := hedit.exists_instance
      rcases hkept hentry with ⟨old, hold, hstate⟩ | ⟨-, original, shared, hshared, hstate⟩ |
        ⟨-, -, hstate, -⟩
      · exact hstate ▸ ih hold
      · exact .inr (.inl ⟨original, shared, hshared, hstate⟩)
      · exact .inr (.inr (hstate ▸ (Edits.remains hedits).2))

namespace Revision

variable {r next : Revision} {supply left : Supply} {id x y : ObjectId} {state state' : ObjectState}
  {updates : List (ObjectId × Payload)}

theorem apart_foldl_install {t : Table × Supply} {bound : Nat}
    (hissued : ∀ {id entry}, t.1.get? id = some entry → entry.state.stamp < t.2.nextStamp)
    (hapart : t.1.Apart bound) (changes : List (ObjectId × Payload)) :
    (changes.foldl install t).1.Apart bound := by
  induction changes generalizing t with
  | nil => exact hapart
  | cons change changes ih =>
      have hget : ∀ {id entry}, (install t change).1.get? id = some entry →
          id = change.1 ∧ entry.state.stamp = t.2.nextStamp ∨
            id ≠ change.1 ∧ t.1.get? id = some entry := by
        intro id entry hentry
        rw [install, Supply.stamp, Table.get?_setState] at hentry
        split at hentry
        · rename_i hid
          obtain ⟨old, -, rfl⟩ := Option.map_eq_some_iff.mp hentry
          exact .inl ⟨hid.symm, rfl⟩
        · rename_i hid
          exact .inr ⟨Ne.symm hid, hentry⟩
      refine ih (t := install t change) (fun hentry => ?_) ?_
      · rcases hget hentry with ⟨-, hstamp⟩ | ⟨-, hold⟩
        · exact hstamp ▸ Nat.lt_succ_self _
        · exact Nat.lt_succ_of_lt (hissued hold)
      · intro x y ex ey hx hy hle heq
        rcases hget hx with ⟨rfl, hx⟩ | ⟨-, hx⟩ <;> rcases hget hy with ⟨rfl, hy⟩ | ⟨-, hy⟩
        · rfl
        · exact absurd (hissued hy) (by omega)
        · exact absurd (hissued hx) (by omega)
        · exact hapart x y ex ey hx hy hle heq

theorem eq_of_stamp_eq_of_write (hr : r.table.Sound supply)
    (h : r.write supply updates = .ok (next, left)) (hx : next.state? x = some state)
    (hy : next.state? y = some state') (hnew : supply.nextStamp ≤ state.stamp)
    (hstamp : state.stamp = state'.stamp) : x = y := by
  obtain ⟨-, changes, -, hresult⟩ := write_eq_ok_iff.mp h
  cases hresult
  obtain ⟨ex, hex, rfl⟩ := Option.map_eq_some_iff.mp hx
  obtain ⟨ey, hey, rfl⟩ := Option.map_eq_some_iff.mp hy
  have hissued : ∀ {id entry}, (r.table, supply).1.get? id = some entry →
      entry.state.stamp < (r.table, supply).2.nextStamp := fun hentry => (hr.issued hentry).stamp_lt
  refine apart_foldl_install hissued ?_ _ x y ex ey hex hey hnew hstamp
  intro x y ex ey hx _ hle _
  exact absurd (hissued hx) (Nat.not_lt.mpr hle)

/-! A copy uses up no stamps. -/

theorem nextStamp_copySubtree {source : Table} (wf : source.WellFormed)
    (hid : source.contains id = true) (t : Table) (supply : Supply) :
    (copySubtree source (t, supply) id).2.2.nextStamp = supply.nextStamp := by
  obtain ⟨c, hcopied, heq⟩ := copySubtree_eq wf hid t supply
  rw [heq, hcopied.supply_eq]

theorem nextStamp_copySubtrees {source : Table} (wf : source.WellFormed) {roots : List ObjectId}
    (hroots : ∀ root ∈ roots, source.contains root = true) (t : Table × Supply) :
    (copySubtrees source t roots).2.2.nextStamp = t.2.nextStamp := by
  induction roots generalizing t with
  | nil => rfl
  | cons root roots ih =>
      obtain ⟨hroot, hroots⟩ := List.forall_mem_cons.mp hroots
      exact (ih hroots _).trans (nextStamp_copySubtree wf hroot t.1 t.2)

theorem nextStamp_of_copy {source : Revision} {copy : ObjectId} (wf : source.table.WellFormed)
    (h : r.copy supply source id = .ok (copy, next, left)) :
    left.nextStamp = supply.nextStamp := by
  obtain ⟨-, hid, hresult⟩ := copy_eq_ok_iff.mp h
  cases hresult
  exact nextStamp_copySubtree wf hid r.table supply

theorem nextStamp_of_copySelected {source : Revision} {sel copies : Selection}
    (wf : source.table.WellFormed)
    (h : r.copySelected supply source sel = .ok (copies, next, left)) :
    left.nextStamp = supply.nextStamp := by
  obtain ⟨-, hresult⟩ := copySelected_eq_ok_iff.mp h
  cases hresult
  refine nextStamp_copySubtrees wf (fun root hroot => ?_) (r.table, supply)
  exact ((mem_selectedRoots_iff wf).mp hroot).1

/-- Two revisions have an object and hold payloads for it that are not the same. -/
def Differs (r next : Revision) (id : ObjectId) : Prop :=
  ∃ old new, r.payload? id = some old ∧ next.payload? id = some new ∧ same new old = false

theorem Differs.exists_state (h : r.Differs next id) : ∃ state, next.state? id = some state := by
  obtain ⟨-, new, -, hnew, -⟩ := h
  obtain ⟨state, hstate, -⟩ := Option.map_eq_some_iff.mp hnew
  exact ⟨state, hstate⟩

theorem contains_of_payload?_eq_some {payload : Payload} (h : r.payload? id = some payload) :
    r.contains id = true := by
  obtain ⟨state, hstate, -⟩ := Option.map_eq_some_iff.mp h
  exact contains_iff_exists_state?.mpr ⟨state, hstate⟩

theorem replaces_iff_differs (hr : r.table.Sound supply)
    (h : r.write supply updates = .ok (next, left)) :
    r.Replaces updates id ↔ r.Differs next id := by
  have hchanged := changed_of_write h
  constructor
  · rintro ⟨payload, stored, hupdate, hstored, hdiffers⟩
    obtain ⟨-, changes, hchanges, hresult⟩ := write_eq_ok_iff.mp h
    have hnext : next.payload? id = ((r.payload? id).map
        (payloadsFor (changes.filter (isNews r.table)) id).getLast?.getD) := by
      have hinstalled := @payload?_foldl_install r id (r.table, supply)
        (changes.filter (isNews r.table))
      rwa [← hresult] at hinstalled
    rw [hstored, Option.map_some, payloadsFor_filter_isNews hstored] at hnext
    -- What is installed last differs from what was held, like everything that is installed.
    have hmem : payload.normalize ∈ (payloadsFor changes id).filter (!same · stored) := by
      refine List.mem_filter.mpr ⟨?_, by rw [hdiffers]; rfl⟩
      rw [payloadsFor_of_mapM_vet hchanges]
      exact List.mem_map_of_mem (List.mem_map.mpr
        ⟨(id, payload), List.mem_filter.mpr ⟨hupdate, beq_self_eq_true _⟩, rfl⟩)
    cases hlast : ((payloadsFor changes id).filter (!same · stored)).getLast? with
    | none => rw [List.getLast?_eq_none_iff.mp hlast] at hmem; cases hmem
    | some last =>
        rw [hlast, Option.getD_some] at hnext
        refine ⟨stored, last, hstored, hnext, ?_⟩
        simpa using (List.mem_filter.mp (List.mem_of_getLast? hlast)).2
  · rintro ⟨old, new, hold, hnew, hdiffers⟩
    by_contra hkept
    have hpayload : next.payload? id = r.payload? id :=
      congrArg (Option.map ObjectState.payload) (hchanged.state?_eq id
        (contains_of_payload?_eq_some hold) (contains_of_payload?_eq_some hnew) hkept)
    rw [hpayload, hold, Option.some.injEq] at hnew
    subst hnew
    obtain ⟨entry, hentry, rfl⟩ := payload?_eq_some_iff.mp hold
    rw [Payload.same_self_of_accept (hr.issued hentry).accept_eq] at hdiffers
    cases hdiffers

end Revision

end Schematic
