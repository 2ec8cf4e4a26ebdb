import Schematic.Proofs.Store.Edit

/-!
Both ways of writing accept and refuse the same lists, since no update changes what the next one is
checked against. They compare an update with different payloads, though: the one with what is held
before all updates, the other with what the updates before it have left.
-/

namespace Schematic

namespace Revision

def writeEach (r : Revision) (supply : Supply) :
    List (ObjectId × Payload) → Except StoreError (Revision × Supply)
  | [] => .ok (r, supply)
  | update :: updates => do
      let (next, left) ← r.write supply [update]
      next.writeEach left updates

def payloadsFor (updates : List (ObjectId × Payload)) (id : ObjectId) : List Payload :=
  (updates.filter (·.1 == id)).map Prod.snd

/-- Updates change the payload of an object, and the last of them for this object asks for the
payload that it has had before. -/
def Reverts (r : Revision) (updates : List (ObjectId × Payload)) (id : ObjectId) : Prop :=
  ∃ stored last, r.payload? id = some stored ∧
    (payloadsFor updates id).getLast? = some last ∧ same last.normalize stored = true ∧
      ∃ other ∈ payloadsFor updates id, same other.normalize stored = false

def settle (t : Table × Supply) (change : ObjectId × Payload) : Table × Supply :=
  if isNews t.1 change then install t change else t

variable {r : Revision} {supply : Supply} {t u : Table} {id : ObjectId}
  {updates changes : List (ObjectId × Payload)}

/-! ### Acceptance -/

theorem vet_congr (hcontains : ∀ id, u.contains id = t.contains id)
    (hsiblings : ∀ place, u.siblings place = t.siblings place) : vet u = vet t := by
  funext update
  have hpresent := hcontains update.1
  have hchildren : u.hasChildren update.1 = t.hasChildren update.1 := by
    rw [Table.hasChildren, hsiblings, ← Table.hasChildren]
  unfold Table.contains at hpresent
  unfold vet
  cases hu : u.get? update.1 <;> cases ht : t.get? update.1 <;> simp_all

theorem vet_settle (t : Table) (supply : Supply) (change : ObjectId × Payload) :
    vet (settle (t, supply) change).1 = vet t := by
  unfold settle
  split
  · refine vet_congr (fun id => ?_) fun _ => rfl
    rw [Bool.eq_iff_iff, Table.contains_iff, Table.contains_iff]
    simp [install]
  · rfl

theorem write_eq (htransient : r.transient = true) (supply : Supply)
    (updates : List (ObjectId × Payload)) :
    r.write supply updates = (updates.mapM (vet r.table)).map fun changes =>
      r.withTable ((changes.filter (isNews r.table)).foldl install (r.table, supply)) := by
  unfold write editable
  rw [if_pos htransient]
  simp only [bind, Except.bind, stage_eq]
  cases updates.mapM (vet r.table) <;> rfl

theorem write_singleton_eq (htransient : r.transient = true) (update : ObjectId × Payload) :
    r.write supply [update] =
      (vet r.table update).map fun change => r.withTable (settle (r.table, supply) change) := by
  rw [write_eq htransient, List.mapM_cons, List.mapM_nil]
  cases vet r.table update with
  | error e => rfl
  | ok change =>
      change Except.ok (r.withTable (([change].filter (isNews r.table)).foldl install _)) =
        Except.ok (r.withTable (settle _ change))
      rw [settle, List.filter_cons, List.filter_nil]
      split <;> rfl

theorem writeEach_eq (htransient : r.transient = true) (supply : Supply)
    (updates : List (ObjectId × Payload)) :
    r.writeEach supply updates = (updates.mapM (vet r.table)).map fun changes =>
      r.withTable (changes.foldl settle (r.table, supply)) := by
  induction updates generalizing r supply with
  | nil => rfl
  | cons update updates ih =>
      rw [writeEach, write_singleton_eq htransient, List.mapM_cons]
      cases hvet : vet r.table update with
      | error e => rfl
      | ok change =>
          have hnext : (r.withTable (settle (r.table, supply) change)).1.transient = true :=
            htransient
          have hvets : vet (r.withTable (settle (r.table, supply) change)).1.table = vet r.table :=
            vet_settle r.table supply change
          change (r.withTable (settle (r.table, supply) change)).1.writeEach
            (r.withTable (settle (r.table, supply) change)).2 updates = _
          rw [ih hnext, hvets]
          cases updates.mapM (vet r.table) <;> rfl

/-! ### Payloads -/

theorem eq_map_of_mapM_vet (h : updates.mapM (vet t) = .ok changes) :
    changes = updates.map fun update => (update.1, update.2.normalize) := by
  induction updates generalizing changes with
  | nil =>
      cases h
      rfl
  | cons update updates ih =>
      rw [List.mapM_cons, bind_eq_ok_iff] at h
      obtain ⟨change, hvet, h⟩ := h
      rw [bind_eq_ok_iff] at h
      obtain ⟨rest, hrest, h⟩ := h
      cases h
      obtain ⟨-, -, hid, hkept⟩ := vet_eq_ok_iff.mp hvet
      rw [List.map_cons, ← ih hrest, ← hid, ← (Payload.accept_eq_ok_iff.mp hkept).2]

theorem payloadsFor_map (f : Payload → Payload) (updates : List (ObjectId × Payload)) :
    payloadsFor (updates.map fun update => (update.1, f update.2)) id =
      (payloadsFor updates id).map f := by
  rw [payloadsFor, payloadsFor, List.filter_map, List.map_map, List.map_map]
  rfl

theorem payloadsFor_of_mapM_vet (h : updates.mapM (vet t) = .ok changes) :
    payloadsFor changes id = (payloadsFor updates id).map Payload.normalize := by
  rw [eq_map_of_mapM_vet h, payloadsFor_map]

theorem contains_of_mapM_vet (h : updates.mapM (vet t) = .ok changes) {change : ObjectId × Payload}
    (hchange : change ∈ changes) :
    t.contains change.1 = true ∧ same change.2 change.2 = true := by
  obtain ⟨update, -, hvet⟩ := exists_of_mem_mapM h hchange
  obtain ⟨hid, -, heq, hkept⟩ := vet_eq_ok_iff.mp hvet
  exact ⟨heq ▸ hid, Payload.same_self_of_accept hkept⟩

theorem payloadsFor_cons (change : ObjectId × Payload) (changes : List (ObjectId × Payload)) :
    payloadsFor (change :: changes) id =
      if change.1 = id then change.2 :: payloadsFor changes id else payloadsFor changes id := by
  unfold payloadsFor
  rw [List.filter_cons]
  by_cases h : change.1 = id <;> simp [h]

theorem payload?_eq_some_iff {stored : Payload} :
    r.payload? id = some stored ↔
      ∃ entry, r.table.get? id = some entry ∧ entry.state.payload = stored := by
  rw [payload?, state?, Option.map_map, Option.map_eq_some_iff]
  rfl

theorem isNews_eq {change : ObjectId × Payload} {stored : Payload}
    (h : r.payload? change.1 = some stored) : isNews r.table change = !same change.2 stored := by
  obtain ⟨entry, hentry, rfl⟩ := payload?_eq_some_iff.mp h
  rw [isNews, hentry, Option.any_some]

theorem payloadsFor_filter_isNews {stored : Payload} (h : r.payload? id = some stored)
    (changes : List (ObjectId × Payload)) :
    payloadsFor (changes.filter (isNews r.table)) id =
      (payloadsFor changes id).filter (!same · stored) := by
  induction changes with
  | nil => rfl
  | cons change changes ih =>
      rw [List.filter_cons, payloadsFor_cons]
      by_cases hid : change.1 = id
      · rw [isNews_eq (hid ▸ h), if_pos hid, List.filter_cons]
        split
        · rw [payloadsFor_cons, if_pos hid, ih]
        · exact ih
      · rw [if_neg hid]
        split
        · rw [payloadsFor_cons, if_neg hid, ih]
        · exact ih

theorem payload?_install (t : Table × Supply) (change : ObjectId × Payload) :
    (r.withTable (install t change)).1.payload? id =
      if change.1 = id then ((r.withTable t).1.payload? id).map fun _ => change.2
      else (r.withTable t).1.payload? id := by
  unfold payload? state?
  change Option.map _ (Option.map _ ((t.1.setState change.1 _).get? id)) = _
  rw [Table.get?_setState]
  split
  · rename_i h
    subst h
    rw [Option.map_map, Option.map_map, Option.map_map, Option.map_map]
    rfl
  · rfl

theorem payload?_foldl_install (t : Table × Supply) (changes : List (ObjectId × Payload)) :
    (r.withTable (changes.foldl install t)).1.payload? id =
      ((r.withTable t).1.payload? id).map (payloadsFor changes id).getLast?.getD := by
  induction changes generalizing t with
  | nil =>
      change _ = Option.map (fun stored => stored) _
      rw [Option.map_id']
      rfl
  | cons change changes ih =>
      rw [List.foldl_cons, ih, payload?_install, payloadsFor_cons]
      split
      · rw [Option.map_map, List.getLast?_cons]
        rfl
      · rfl

theorem payload?_settle_of_ne {t : Table × Supply} {change : ObjectId × Payload}
    (hne : change.1 ≠ id) :
    (r.withTable (settle t change)).1.payload? id = (r.withTable t).1.payload? id := by
  unfold settle
  split
  · rw [payload?_install, if_neg hne]
  · rfl

theorem exists_payload?_settle {t : Table × Supply} {change : ObjectId × Payload}
    {stored : Payload} (hpayload : (r.withTable t).1.payload? change.1 = some stored)
    (hchange : same change.2 change.2 = true) :
    ∃ kept, (r.withTable (settle t change)).1.payload? change.1 = some kept ∧
      same change.2 kept = true := by
  have hnews : isNews t.1 change = !same change.2 stored := isNews_eq hpayload
  unfold settle
  split
  · exact ⟨change.2, by rw [payload?_install, if_pos rfl, hpayload, Option.map_some], hchange⟩
  · rename_i h
    exact ⟨stored, hpayload, by simpa [hnews] using h⟩

theorem exists_payload?_foldl_settle {t : Table × Supply} {stored : Payload}
    (hpayload : (r.withTable t).1.payload? id = some stored) (hstored : same stored stored = true)
    (hchanges : ∀ change ∈ changes, same change.2 change.2 = true) :
    ∃ kept, (r.withTable (changes.foldl settle t)).1.payload? id = some kept ∧
      same ((payloadsFor changes id).getLast?.getD stored) kept = true := by
  induction changes generalizing t stored with
  | nil => exact ⟨stored, hpayload, hstored⟩
  | cons change changes ih =>
      have hrest : ∀ other ∈ changes, same other.2 other.2 = true := fun other h =>
        hchanges other (List.mem_cons_of_mem _ h)
      rw [List.foldl_cons, payloadsFor_cons]
      by_cases hid : change.1 = id
      · subst hid
        rw [if_pos rfl, List.getLast?_cons, Option.getD_some]
        obtain ⟨next, hnext, hsame⟩ :=
          exists_payload?_settle hpayload (hchanges change List.mem_cons_self)
        have hself : same next next = true :=
          LawfulSame.trans (LawfulSame.symm hsame) hsame
        obtain ⟨kept, hkept, hlast⟩ := ih hnext hself hrest
        refine ⟨kept, hkept, ?_⟩
        cases hlist : (payloadsFor changes change.1).getLast? with
        | none =>
            rw [hlist, Option.getD_none] at hlast
            exact LawfulSame.trans hsame hlast
        | some last =>
            rw [hlist, Option.getD_some] at hlast
            exact hlast
      · rw [if_neg hid]
        exact ih ((payload?_settle_of_ne hid).trans hpayload) hstored hrest

theorem payload?_foldl_settle_eq_none {t : Table × Supply}
    (h : (r.withTable t).1.payload? id = none) :
    (r.withTable (changes.foldl settle t)).1.payload? id = none := by
  induction changes generalizing t with
  | nil => exact h
  | cons change changes ih =>
      apply ih
      unfold settle
      split
      · rw [payload?_install, h]
        split <;> rfl
      · exact h

/-! ### Agreement -/

/-- Of payloads that are compared with the one held before all of them, the last to be installed is
the same as the last one, unless the last one is the one held before and another is not. -/
theorem same_getLast?_filter_iff {stored kept : Payload} {payloads : List Payload}
    (hkept : same (payloads.getLast?.getD stored) kept = true) :
    same ((payloads.filter (!same · stored)).getLast?.getD stored) kept = true ↔
      ¬ ∃ last, payloads.getLast? = some last ∧ same last stored = true ∧
        ∃ other ∈ payloads, same other stored = false := by
  rcases List.eq_nil_or_concat payloads with rfl | ⟨front, last, rfl⟩
  · simpa using hkept
  · rw [List.concat_eq_append] at hkept ⊢
    rw [List.getLast?_concat, Option.getD_some] at hkept
    simp only [List.getLast?_concat, Option.some.injEq, exists_eq_left', List.filter_append]
    cases hlast : same last stored with
    | false => simpa [hlast] using hkept
    | true =>
        have hnone : [last].filter (!same · stored) = [] := by simp [hlast]
        rw [hnone, List.append_nil]
        cases hlist : (front.filter (!same · stored)).getLast? with
        | none =>
            have hfront := List.filter_eq_nil_iff.mp (List.getLast?_eq_none_iff.mp hlist)
            apply iff_of_true (LawfulSame.trans (LawfulSame.symm hlast) hkept)
            rintro ⟨-, other, hother, hnews⟩
            rcases List.mem_append.mp hother with hother | hother
            · exact hfront other hother (by simp [hnews])
            · rw [List.mem_singleton.mp hother, hlast] at hnews
              cases hnews
        | some other =>
            obtain ⟨hother, hnews⟩ := List.mem_filter.mp (List.mem_of_getLast? hlist)
            rw [Bool.not_eq_true'] at hnews
            refine iff_of_false (fun hsame => ?_) (not_not.mpr ⟨rfl, other, ?_, hnews⟩)
            · rw [Option.getD_some] at hsame
              have hback := LawfulSame.trans hsame (LawfulSame.trans (LawfulSame.symm hkept) hlast)
              rw [hnews] at hback
              cases hback
            · exact List.mem_append_left _ hother

theorem reverts_iff {stored : Payload} (h : r.payload? id = some stored) :
    r.Reverts updates id ↔
      ∃ last, ((payloadsFor updates id).map Payload.normalize).getLast? = some last ∧
        same last stored = true ∧
          ∃ other ∈ (payloadsFor updates id).map Payload.normalize, same other stored = false := by
  unfold Reverts
  simp [h, List.getLast?_map]

theorem same_payload?_iff_of_some {stored : Payload} (hr : r.table.Sound supply)
    (hstored : r.payload? id = some stored) (h : updates.mapM (vet r.table) = .ok changes) :
    (same ((r.withTable ((changes.filter (isNews r.table)).foldl install
        (r.table, supply))).1.payload? id)
      ((r.withTable (changes.foldl settle (r.table, supply))).1.payload? id) = true ↔
        ¬ r.Reverts updates id) ∧
      ∀ last, (payloadsFor updates id).getLast? = some last → same (some last.normalize)
        ((r.withTable (changes.foldl settle (r.table, supply))).1.payload? id) = true := by
  have hstart : (r.withTable (r.table, supply)).1.payload? id = some stored := hstored
  have hself : same stored stored = true := by
    obtain ⟨entry, hentry, rfl⟩ := payload?_eq_some_iff.mp hstored
    exact Payload.same_self_of_accept (hr.issued hentry).accept_eq
  obtain ⟨kept, hkept, hlast⟩ := exists_payload?_foldl_settle hstart hself
    fun change hchange => (contains_of_mapM_vet h hchange).2
  rw [payload?_foldl_install, hkept, hstart, Option.map_some, payloadsFor_filter_isNews hstored,
    reverts_iff hstored, ← payloadsFor_of_mapM_vet h]
  refine ⟨same_getLast?_filter_iff hlast, fun last hlist => ?_⟩
  rw [payloadsFor_of_mapM_vet h, List.getLast?_map, hlist] at hlast
  exact hlast

/-- Both ways of writing leave the same payload in an object that the updates do not set back. One
after the other, the last update always counts. -/
theorem same_payload?_iff {batch each : Revision × Supply} (hr : r.table.Sound supply)
    (hbatch : r.write supply updates = .ok batch) (heach : r.writeEach supply updates = .ok each)
    (id : ObjectId) :
    (same (batch.1.payload? id) (each.1.payload? id) = true ↔ ¬ r.Reverts updates id) ∧
      ∀ last, (payloadsFor updates id).getLast? = some last →
        same (some last.normalize) (each.1.payload? id) = true := by
  obtain ⟨htransient, changes, hchanges, rfl⟩ := write_eq_ok_iff.mp hbatch
  rw [writeEach_eq htransient, hchanges] at heach
  cases heach
  cases hstored : r.payload? id with
  | some stored => exact same_payload?_iff_of_some hr hstored hchanges
  | none =>
      have hstart : (r.withTable (r.table, supply)).1.payload? id = none := hstored
      have hnone : payloadsFor updates id = [] := by
        rw [← List.map_eq_nil_iff, ← payloadsFor_of_mapM_vet hchanges]
        refine List.map_eq_nil_iff.mpr (List.filter_eq_nil_iff.mpr fun change hchange hid => ?_)
        have hcontains := (contains_of_mapM_vet hchanges hchange).1
        rw [beq_iff_eq.mp hid] at hcontains
        obtain ⟨entry, hentry⟩ := Option.isSome_iff_exists.mp hcontains
        rw [payload?_eq_some_iff.mpr ⟨entry, hentry, rfl⟩] at hstored
        cases hstored
      rw [payload?_foldl_install, payload?_foldl_settle_eq_none hstart, hstart, Reverts, hstored,
        hnone]
      simp [same]

theorem exists_payload?_of_write {next : Revision} {left : Supply} {payload : Payload}
    (hr : r.table.Sound supply) (h : r.write supply updates = .ok (next, left))
    (hupdate : (id, payload) ∈ updates)
    (hagree : ∀ update ∈ updates, update.1 = id → update.2 = payload) :
    ∃ kept, next.payload? id = some kept ∧ same kept payload.normalize = true := by
  have hpayloads : ∀ other ∈ payloadsFor updates id, other = payload := by
    intro other hother
    obtain ⟨update, hmem, rfl⟩ := List.mem_map.mp hother
    obtain ⟨hmem, hid⟩ := List.mem_filter.mp hmem
    exact hagree update hmem (beq_iff_eq.mp hid)
  have hmem : payload ∈ payloadsFor updates id :=
    List.mem_map.mpr ⟨(id, payload), List.mem_filter.mpr ⟨hupdate, beq_self_eq_true id⟩, rfl⟩
  obtain ⟨last, hlast⟩ :=
    Option.isSome_iff_exists.mp (List.getLast?_isSome.mpr (List.ne_nil_of_mem hmem))
  have heq : last = payload := hpayloads last (List.mem_of_getLast? hlast)
  have hstays : ¬ r.Reverts updates id := by
    rintro ⟨stored, last', hstored, hlast', hsame, other, hother, hdiffers⟩
    rw [hpayloads other hother, ← hpayloads last' (List.mem_of_getLast? hlast'), hsame] at hdiffers
    cases hdiffers
  obtain ⟨htransient, changes, hchanges, -⟩ := write_eq_ok_iff.mp h
  obtain ⟨each, heach⟩ : ∃ each, r.writeEach supply updates = .ok each :=
    ⟨_, by rw [writeEach_eq htransient, hchanges]; rfl⟩
  obtain ⟨hboth, hasked⟩ := same_payload?_iff hr h heach id
  have hsame : same (next.payload? id) (some payload.normalize) = true :=
    LawfulSame.trans (hboth.mpr hstays) (LawfulSame.symm (heq ▸ hasked last hlast))
  cases hkept : next.payload? id with
  | none =>
      rw [hkept] at hsame
      cases hsame
  | some kept =>
      rw [hkept] at hsame
      exact ⟨kept, rfl, hsame⟩

theorem isContainer_of_hasChildren {stored : Payload} (wf : r.table.WellFormed)
    (hstored : r.payload? id = some stored) (h : r.table.hasChildren id = true) :
    stored.kind.isContainer = true := by
  obtain ⟨entry, hentry, rfl⟩ := payload?_eq_some_iff.mp hstored
  have hcontainer := wf.isContainer_of_hasChildren h
  rwa [Table.isContainer, hentry, Option.any_some] at hcontainer

theorem write_eq_self (hr : r.table.Sound supply) (htransient : r.transient = true)
    (h : ∀ update ∈ updates, r.payload? update.1 = some update.2) :
    r.write supply updates = .ok (r, supply) := by
  have hvet : ∀ update ∈ updates, vet r.table update = .ok update := by
    intro update hupdate
    obtain ⟨entry, hentry, hpayload⟩ := payload?_eq_some_iff.mp (h update hupdate)
    exact vet_eq_ok_iff.mpr ⟨Option.isSome_iff_exists.mpr ⟨entry, hentry⟩,
      isContainer_of_hasChildren hr.wellFormed (h update hupdate), rfl,
      hpayload ▸ (hr.issued hentry).accept_eq⟩
  have hnews : updates.filter (isNews r.table) = [] := by
    refine List.filter_eq_nil_iff.mpr fun update hupdate => ?_
    obtain ⟨entry, hentry, hpayload⟩ := payload?_eq_some_iff.mp (h update hupdate)
    rw [isNews_eq (h update hupdate), ← hpayload,
      Payload.same_self_of_accept (hr.issued hentry).accept_eq]
    simp
  rw [write_eq htransient, mapM_eq_ok hvet, List.map_id']
  change Except.ok (r.withTable ((updates.filter (isNews r.table)).foldl install _)) = _
  rw [hnews]
  rfl

end Revision

end Schematic
