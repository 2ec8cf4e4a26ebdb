import Schematic.Proofs.Attribute.Bulk
import Schematic.Proofs.Session.Reachable
import Schematic.Proofs.Store.Refusal

namespace Schematic.Session

variable {s : Session} {r target : Revision} {id : ObjectId}

theorem Reachable.moved (h : s.Reachable) {name : String} (hr : s.revision? name = some r)
    {place : Placement} {moved : Revision} (hmove : r.relocate id place = .ok moved) :
    r.Moved id place moved :=
  Revision.moved_of_relocate (h.sound hr).wellFormed hmove

theorem moved_nested :
    ∃ r moved, nested.revision? "a" = some r ∧
      r.relocate ⟨1⟩ ⟨none, some ⟨4⟩⟩ = .ok moved ∧
        moved.objects = [⟨0⟩, ⟨3⟩, ⟨1⟩, ⟨2⟩, ⟨4⟩] ∧ r.Moved ⟨1⟩ ⟨none, some ⟨4⟩⟩ moved :=
  ⟨_, _, rfl, rfl, rfl,
    reachable_nested.moved (show nested.revision? "a" = some _ from rfl) rfl⟩

/-- A copy of an object of one revision into another always succeeds. Only the revision copied into
changes, and the copies are new to all revisions. -/
theorem Reachable.exists_isCopy (h : s.Reachable) {name source : String}
    (hr : s.revision? name = some target) (htransient : target.transient = true)
    (hsource : s.revision? source = some r) (hid : r.contains id = true) :
    ∃ copy copies after next, s.step (.copy name source id) = (.ok (.object copy), next) ∧
      next.revision? name = some after ∧ Revision.IsCopy r id target after copy copies ∧
        (∀ x ∈ copies, ∀ other r', s.revision? other = some r' → r'.contains x = false) ∧
          ∀ other, other ≠ name → next.revision? other = s.revision? other := by
  obtain ⟨⟨copy, after, left⟩, hcopy⟩ :
      ∃ result, target.copy s.supply r id = .ok result :=
    ⟨_, Revision.copy_eq_ok_iff.mpr ⟨htransient, hid, rfl⟩⟩
  obtain ⟨copies, hisCopy, hfresh⟩ := Revision.isCopy_of_copy (h.sound hsource) (h.sound hr) hcopy
  refine ⟨copy, copies, after, s.update name (after, left), ?_, ?_, hisCopy, ?_, ?_⟩
  · exact (Performs.copy hr hsource hcopy).step_eq
  · simp
  · intro x hx other r' hr'
    exact (h.sound hr').not_contains (hfresh x hx)
  · intro other hne
    simp [hne.symm]

theorem exists_isCopy_nested :
    ∃ r target, nested.revision? "b" = some target ∧ target.transient = true ∧
      nested.revision? "a" = some r ∧ r.contains ⟨1⟩ = true ∧
        ∃ copy copies after next, nested.step (.copy "b" "a" ⟨1⟩) = (.ok (.object copy), next) ∧
          next.revision? "b" = some after ∧ Revision.IsCopy r ⟨1⟩ target after copy copies ∧
            (∀ x ∈ copies, ∀ other r', nested.revision? other = some r' →
              r'.contains x = false) ∧
              ∀ other, other ≠ "b" → next.revision? other = nested.revision? other :=
  ⟨_, _, rfl, rfl, rfl, rfl,
    reachable_nested.exists_isCopy (show nested.revision? "b" = some _ from rfl) rfl
      (show nested.revision? "a" = some _ from rfl) rfl⟩

/-- A copy of any selection from one revision into another always succeeds, and copies each object
that the selection covers once. The answer lists the copies at the top level. -/
theorem Reachable.exists_isSelectedCopy (h : s.Reachable) {name source : String}
    (hr : s.revision? name = some target) (htransient : target.transient = true)
    (hsource : s.revision? source = some r) (sel : Selection) :
    ∃ copies roots tops blocks after next,
      s.step (.copySelected name source sel) = (.ok (.copies copies), next) ∧
        next.revision? name = some after ∧
          Revision.IsSelectedCopy r sel target after copies roots tops blocks ∧
            (∀ x ∈ blocks.flatten, ∀ other r', s.revision? other = some r' →
              r'.contains x = false) ∧
              ∀ other, other ≠ name → next.revision? other = s.revision? other := by
  obtain ⟨⟨copies, after, left⟩, hcopy⟩ :
      ∃ result, target.copySelected s.supply r sel = .ok result :=
    ⟨_, Revision.copySelected_eq_ok_iff.mpr ⟨htransient, rfl⟩⟩
  obtain ⟨roots, tops, blocks, hcopies, hfresh⟩ :=
    Revision.isSelectedCopy_of_copySelected (h.sound hsource) (h.sound hr) hcopy
  refine ⟨copies, roots, tops, blocks, after, s.update name (after, left), ?_, ?_, hcopies, ?_, ?_⟩
  · exact (Performs.copySelected hr hsource hcopy).step_eq
  · simp
  · intro x hx other r' hr'
    exact (h.sound hr').not_contains (hfresh x hx)
  · intro other hne
    simp [hne.symm]

theorem exists_isSelectedCopy_nested :
    ∃ r target, nested.revision? "b" = some target ∧ target.transient = true ∧
      nested.revision? "a" = some r ∧
        ∃ copies roots tops blocks after next,
          nested.step (.copySelected "b" "a" (.ofList [⟨4⟩, ⟨2⟩, ⟨1⟩, ⟨9⟩])) =
              (.ok (.copies copies), next) ∧
            next.revision? "b" = some after ∧
              Revision.IsSelectedCopy r (.ofList [⟨4⟩, ⟨2⟩, ⟨1⟩, ⟨9⟩]) target after copies roots
                tops blocks ∧
                (∀ x ∈ blocks.flatten, ∀ other r', nested.revision? other = some r' →
                  r'.contains x = false) ∧
                  ∀ other, other ≠ "b" → next.revision? other = nested.revision? other :=
  ⟨_, _, rfl, rfl, rfl,
    reachable_nested.exists_isSelectedCopy (show nested.revision? "b" = some _ from rfl) rfl
      (show nested.revision? "a" = some _ from rfl) _⟩

/-- A list of updates is accepted at once if it is accepted piece by piece, and refused for the same
reason. Both leave the same payload in an object, that of its last update, unless the object is set
back to what it held. -/
theorem Reachable.same_write_writeEach_iff (h : s.Reachable) {name : String}
    (hr : s.revision? name = some r) (htransient : r.transient = true)
    (updates : List (ObjectId × Payload)) :
    ((∃ batch, r.write s.supply updates = .ok batch) ↔
      ∃ each, r.writeEach s.supply updates = .ok each) ∧
    (∀ e, r.write s.supply updates = .error e ↔ r.writeEach s.supply updates = .error e) ∧
    ∀ batch each, r.write s.supply updates = .ok batch → r.writeEach s.supply updates = .ok each →
      ∀ id, (same (batch.1.payload? id) (each.1.payload? id) = true ↔ ¬ r.Reverts updates id) ∧
        ∀ last, (Revision.payloadsFor updates id).getLast? = some last →
          same (some last.normalize) (each.1.payload? id) = true ∧
            (same (some last.normalize) (batch.1.payload? id) = true ↔
              ¬ r.Reverts updates id) := by
  have hwrite := Revision.write_eq htransient s.supply updates
  have heach := Revision.writeEach_eq htransient s.supply updates
  refine ⟨?_, fun e => ?_, fun batch each hbatch heach id => ?_⟩
  · rw [hwrite, heach]
    cases updates.mapM (Revision.vet r.table) <;> simp [Except.map]
  · rw [hwrite, heach]
    cases updates.mapM (Revision.vet r.table) <;> simp [Except.map]
  · obtain ⟨hsame, hlast⟩ := Revision.same_payload?_iff (h.sound hr) hbatch heach id
    refine ⟨hsame, fun last hlist => ⟨hlast last hlist, ?_⟩⟩
    rw [← hsame]
    constructor
    · intro hbatch
      exact LawfulSame.trans (LawfulSame.symm hbatch) (hlast last hlist)
    · intro hboth
      exact LawfulSame.trans (hlast last hlist) (LawfulSame.symm hboth)

theorem same_write_writeEach_iff_nested :
    ∃ r batch each, nested.revision? "a" = some r ∧ r.transient = true ∧
      r.write nested.supply [(⟨2⟩, .text {}), (⟨2⟩, .text { color := 1 })] = .ok batch ∧
        r.writeEach nested.supply [(⟨2⟩, .text {}), (⟨2⟩, .text { color := 1 })] = .ok each ∧
          ∀ id, same (batch.1.payload? id) (each.1.payload? id) = true ↔
            ¬ r.Reverts [(⟨2⟩, .text {}), (⟨2⟩, .text { color := 1 })] id :=
  ⟨_, _, _, rfl, rfl, rfl, rfl, fun id =>
    ((reachable_nested.same_write_writeEach_iff (show nested.revision? "a" = some _ from rfl) rfl
      _).2.2 _ _ rfl rfl id).1⟩

theorem not_forall_same_write_writeEach :
    ¬ ∀ (s : Session) (name : String) (r : Revision) (updates : List (ObjectId × Payload))
      (batch each : Revision × Supply), s.Reachable → s.revision? name = some r →
        r.transient = true → r.write s.supply updates = .ok batch →
          r.writeEach s.supply updates = .ok each →
            ∀ id, same (batch.1.payload? id) (each.1.payload? id) = true := by
  intro h
  have hsame := h nested "a" _ [(⟨2⟩, .text { color := 1 }), (⟨2⟩, .text {})] _ _
    reachable_nested rfl rfl rfl rfl ⟨2⟩
  cases hsame

/-- Every payload that is held is canonical. What has been read may therefore be written back, one
payload or many at once, which does nothing: even the instances stay. -/
theorem Reachable.canonical_and_step_write_eq (h : s.Reachable) {name : String}
    (hr : s.revision? name = some r) :
    (∀ id payload, r.payload? id = some payload → payload.Canonical) ∧
      (r.transient = true →
        (∀ id, r.contains id = true → ∃ payload, r.payload? id = some payload ∧
          s.step (.write name [(id, payload)]) = (.ok .done, s)) ∧
        ∀ updates : List (ObjectId × Payload),
          (∀ update ∈ updates, r.payload? update.1 = some update.2) →
            s.step (.write name updates) = (.ok .done, s)) := by
  have hback : r.transient = true → ∀ updates : List (ObjectId × Payload),
      (∀ update ∈ updates, r.payload? update.1 = some update.2) →
        s.step (.write name updates) = (.ok .done, s) := by
    intro htransient updates hupdates
    have hwrite := Revision.write_eq_self (h.sound hr) htransient hupdates
    rw [(Performs.write hr hwrite).step_eq, update_eq_self hr]
  refine ⟨fun id payload hpayload => ?_, fun htransient => ⟨fun id hid => ?_, hback htransient⟩⟩
  · obtain ⟨entry, hentry, rfl⟩ := Revision.payload?_eq_some_iff.mp hpayload
    exact Payload.canonical_of_accept_self ((h.sound hr).issued hentry).accept_eq
  · obtain ⟨entry, hentry⟩ := Option.isSome_iff_exists.mp hid
    have hpayload := Revision.payload?_eq_some_iff.mpr ⟨entry, hentry, rfl⟩
    exact ⟨_, hpayload, hback htransient [(id, _)] fun update hupdate =>
      List.mem_singleton.mp hupdate ▸ hpayload⟩

/-- A label, and a box with a negative zero and with a dash and a hatch that its styles do not use;
the fork of this has a copy of the box. -/
def boxed : Session :=
  (run {} [.start "a", .add "a" (.blank .text) .top,
    .add "a" (.box {
      pos := ⟨.ofCode true 0, .zero⟩, line := { dashLength := .ofCode false (1023 <<< 52) },
      fill := { style := 1, pitch0 := .ofCode false (1023 <<< 52) } }) .top,
    .fork "b" "a", .copy "b" "a" ⟨1⟩]).2

theorem reachable_boxed : boxed.Reachable := reachable_iff.mpr ⟨{}, _, rfl⟩

theorem canonical_and_step_write_eq_boxed :
    ∃ r payload label, boxed.revision? "b" = some r ∧ r.transient = true ∧
      r.payload? ⟨2⟩ = some payload ∧ r.payload? ⟨0⟩ = some label ∧ payload.Canonical ∧
        boxed.step (.write "b" [(⟨2⟩, payload), (⟨0⟩, label), (⟨2⟩, payload)]) =
          (.ok .done, boxed) := by
  have hr : boxed.revision? "b" = some _ := rfl
  obtain ⟨hcanonical, hback⟩ := reachable_boxed.canonical_and_step_write_eq hr
  refine ⟨_, _, _, hr, rfl, rfl, rfl, hcanonical ⟨2⟩ _ rfl, (hback rfl).2 _ ?_⟩
  simp only [List.forall_mem_cons]
  exact ⟨rfl, rfl, rfl, List.forall_mem_nil _⟩

theorem step_apply_of_error {name : String} {sel : Selection} {change : Change} {e : StoreError}
    (hr : s.revision? name = some r) (happly : r.apply s.supply sel change = .error e) :
    s.step (.apply name sel change) = (.error (.store e), s) := by
  simp only [step, perform, ofStore, revision_eq_ok_iff.mpr hr, happly, bind, Except.bind,
    Except.mapError]

/-- One field of the selected objects is changed in all of them or in none. A value is refused only
by the check of the field, and only where there is an object to put it into. -/
theorem Reachable.apply_outcome (h : s.Reachable) {name : String}
    (hr : s.revision? name = some r) (sel : Selection) (a : Attribute) (value : a.Value) :
    ((∃ answer, (s.step (.apply name sel (a.change value))).1 = .ok answer) ↔
      r.transient = true ∧ ((∀ id, ¬ r.Offers sel a id) ∨ a.check value = .ok ())) ∧
    (r.transient = false →
      s.step (.apply name sel (a.change value)) = (.error (.store .notTransient), s)) ∧
    (∀ reason, r.transient = true → (∃ id, r.Offers sel a id) → a.check value = .error reason →
      s.step (.apply name sel (a.change value)) = (.error (.store (.invalidData reason)), s)) ∧
    (r.transient = true → (∀ id, ¬ r.Offers sel a id) ∨ a.check value = .ok () →
      ∃ next left, s.step (.apply name sel (a.change value)) =
        (.ok .done, s.update name (next, left)) ∧ r.BulkChanged sel a value next) := by
  have hsound := h.sound hr
  have hfinal : r.transient = false →
      s.step (.apply name sel (a.change value)) = (.error (.store .notTransient), s) := by
    intro htransient
    refine step_apply_of_error hr ?_
    exact (Revision.write_eq_error_iff hsound.wellFormed).mpr (.inl ⟨htransient, rfl⟩)
  have hrefused : ∀ reason, r.transient = true → (∃ id, r.Offers sel a id) →
      a.check value = .error reason →
        s.step (.apply name sel (a.change value)) = (.error (.store (.invalidData reason)), s) :=
    fun reason htransient hoffers hcheck =>
      step_apply_of_error hr (Revision.apply_eq_error hsound htransient hoffers hcheck)
  have hdone : r.transient = true → (∀ id, ¬ r.Offers sel a id) ∨ a.check value = .ok () →
      ∃ next left, s.step (.apply name sel (a.change value)) =
        (.ok .done, s.update name (next, left)) ∧ r.BulkChanged sel a value next := by
    intro htransient haccepts
    obtain ⟨next, left, happly⟩ := Revision.exists_apply_eq_ok hsound htransient haccepts
    have hstep := (Performs.apply hr happly).step_eq
    exact ⟨next, left, hstep, Revision.bulkChanged_of_apply hsound happly⟩
  refine ⟨⟨fun ⟨answer, hanswer⟩ => ?_, fun ⟨htransient, haccepts⟩ => ?_⟩, hfinal, hrefused, hdone⟩
  · cases htransient : r.transient with
    | false =>
        rw [hfinal htransient] at hanswer
        cases hanswer
    | true =>
        refine ⟨rfl, or_iff_not_imp_left.mpr fun hoffers => ?_⟩
        rw [not_forall_not] at hoffers
        cases hcheck : a.check value with
        | ok _ => rfl
        | error reason =>
            rw [hrefused reason htransient hoffers hcheck] at hanswer
            cases hanswer
  · obtain ⟨next, left, hstep, -⟩ := hdone htransient haccepts
    exact ⟨.done, by rw [hstep]⟩

theorem apply_outcome_boxed :
    ∃ r next left, boxed.revision? "b" = some r ∧ r.transient = true ∧
      Attribute.stroke.check (.solid (.ofCode false (1023 <<< 52))) = .ok () ∧
        boxed.step (.apply "b" (.ofList [⟨0⟩, ⟨1⟩, ⟨9⟩])
            (.stroke (.solid (.ofCode false (1023 <<< 52))))) =
          (.ok .done, boxed.update "b" (next, left)) ∧
          r.BulkChanged (.ofList [⟨0⟩, ⟨1⟩, ⟨9⟩]) .stroke
            (.solid (.ofCode false (1023 <<< 52))) next := by
  have hr : boxed.revision? "b" = some _ := rfl
  obtain ⟨-, -, -, hdone⟩ := reachable_boxed.apply_outcome hr (.ofList [⟨0⟩, ⟨1⟩, ⟨9⟩]) .stroke
    (.solid (.ofCode false (1023 <<< 52)))
  obtain ⟨next, left, hstep, hchanged⟩ := hdone rfl (.inr rfl)
  exact ⟨_, next, left, hr, rfl, rfl, hstep, hchanged⟩

/-- Deletion takes away what a selection covers and nothing else, so it does not matter in what
portions or in which order the objects of a selection are deleted. -/
theorem Reachable.deletions (h : s.Reachable) {name : String} (hr : s.revision? name = some r)
    (htransient : r.transient = true) :
    (∀ sel, ∃ next, r.deleteSelected sel = .ok next ∧
      s.step (.deleteSelected name sel) = (.ok .done, s.put name next) ∧ r.Pruned sel next) ∧
    (∀ id, r.contains id = true → r.delete id = r.deleteSelected (.object id)) ∧
    (∀ sel sel',
      (r.deleteSelected sel >>= fun next => next.deleteSelected sel') =
        r.deleteSelected (sel.union sel') ∧
      (r.deleteSelected sel' >>= fun next => next.deleteSelected sel) =
        r.deleteSelected (sel.union sel')) ∧
    (∀ sel, (r.deleteSelected sel >>= fun next => next.deleteSelected sel) =
      r.deleteSelected sel) ∧
    ∀ sel order, (∀ id, r.contains id = true → (id ∈ order ↔ sel.contains id = true)) →
      r.deleteEach order = r.deleteSelected sel := by
  have wf := (h.sound hr).wellFormed
  refine ⟨fun sel => ?_, fun id => Revision.delete_eq wf, fun sel sel' => ⟨?_, ?_⟩, fun sel => ?_,
    fun sel order horder => ?_⟩
  · obtain ⟨next, hdelete⟩ := Revision.exists_deleteSelected_eq_ok htransient sel
    exact ⟨next, hdelete, (Performs.deleteSelected hr hdelete).step_eq,
      Revision.pruned_of_deleteSelected wf hdelete⟩
  · exact Revision.deleteSelected_bind wf sel sel'
  · rw [Selection.union_comm]
    exact Revision.deleteSelected_bind wf sel' sel
  · rw [Revision.deleteSelected_bind wf, Selection.union_self]
  · rw [Revision.deleteEach_eq wf htransient]
    refine Revision.deleteSelected_congr wf fun id hid => ?_
    rw [Bool.eq_iff_iff, Selection.contains_ofList, horder id hid]

theorem deletions_nested :
    ∃ r next, nested.revision? "a" = some r ∧ r.transient = true ∧
      r.deleteSelected (.ofList [⟨2⟩, ⟨1⟩, ⟨9⟩]) = .ok next ∧
        r.Pruned (.ofList [⟨2⟩, ⟨1⟩, ⟨9⟩]) next ∧
          ∀ order : List ObjectId, order.Perm [⟨1⟩, ⟨2⟩] → r.deleteEach order = .ok next := by
  have hr : nested.revision? "a" = some _ := rfl
  obtain ⟨hdelete, -, -, -, horder⟩ := reachable_nested.deletions hr rfl
  obtain ⟨next, hnext, -, hpruned⟩ := hdelete (.ofList [⟨2⟩, ⟨1⟩, ⟨9⟩])
  refine ⟨_, next, hr, rfl, hnext, hpruned, fun order hperm => ?_⟩
  refine (horder _ order fun id hid => ?_).trans hnext
  have habsent : id ≠ ⟨9⟩ := by
    rintro rfl
    cases hid
  simp [hperm.mem_iff, habsent, or_comm]

end Schematic.Session
