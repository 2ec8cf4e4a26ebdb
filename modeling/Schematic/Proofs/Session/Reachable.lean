import Schematic.Proofs.Store.Copy
import Schematic.Session

/-!
A command that succeeds puts one revision in place, made by edits from tables that the session had
at hand, or lets go of one; so what every edit keeps holds of every table of every session.
-/

namespace Schematic.Session

/-- The sessions that commands lead to, from a session without revisions. -/
inductive Reachable : Session → Prop
  | start (supply : Supply) : Reachable { supply }
  | step {s : Session} (command : Command) (h : s.Reachable) : Reachable (s.step command).2

variable {s next : Session} {command : Command} {answer : Answer} {name other : String}
  {r : Revision} {t : Table}

theorem run_append (s : Session) (commands more : List Command) :
    (s.run (commands ++ more)).2 = ((s.run commands).2.run more).2 := by
  induction commands generalizing s with
  | nil => rfl
  | cons command commands ih => exact ih (s.step command).2

theorem Reachable.run (h : s.Reachable) (commands : List Command) :
    (s.run commands).2.Reachable := by
  induction commands generalizing s with
  | nil => exact h
  | cons command commands ih => exact ih (h.step command)

theorem reachable_iff :
    s.Reachable ↔
      ∃ (supply : Supply) (commands : List Command), (run { supply } commands).2 = s := by
  constructor
  · intro h
    induction h with
    | start supply => exact ⟨supply, [], rfl⟩
    | step command _ ih =>
        obtain ⟨supply, commands, rfl⟩ := ih
        exact ⟨supply, commands ++ [command], run_append _ commands [command]⟩
  · rintro ⟨supply, commands, rfl⟩
    exact (Reachable.start supply).run commands

/-- A drawing with a component in a component, labels at every level, and a fork of it. -/
def nested : Session :=
  (run {} [.start "a", .add "a" (.blank .component) .top,
    .add "a" (.blank .component) ⟨some ⟨0⟩, none⟩, .add "a" (.blank .text) ⟨some ⟨1⟩, none⟩,
    .add "a" (.blank .text) ⟨some ⟨0⟩, none⟩, .add "a" (.blank .text) .top, .fork "b" "a"]).2

theorem reachable_nested : nested.Reachable := reachable_iff.mpr ⟨{}, _, rfl⟩

theorem step_eq_of_perform (h : s.perform command = .ok (answer, next)) :
    s.step command = (.ok answer, next) := by
  rw [step, h]

@[simp] theorem revision_eq_ok_iff : s.revision name = .ok r ↔ s.revision? name = some r := by
  unfold revision
  cases s.revision? name <;> simp

/-- How a command succeeds: the revisions that it finds, and what it makes of them. -/
inductive Performs (s : Session) : Command → Answer → Session → Prop
  | start (rev : String) : Performs s (.start rev) .done (s.put rev {})
  | fork (rev : String) {source : String} {r : Revision} (hr : s.revision? source = some r) :
      Performs s (.fork rev source) .done (s.put rev r.fork)
  | finalize {rev : String} {r : Revision} (hr : s.revision? rev = some r) :
      Performs s (.finalize rev) .done (s.put rev r.finalize)
  | drop (rev : String) : Performs s (.drop rev) (.existed (s.revision? rev).isSome)
      { s with revisions := s.revisions.erase rev }
  | add {rev : String} {payload : Payload} {place : Placement} {id : ObjectId}
      {r changed : Revision} {left : Supply} (hr : s.revision? rev = some r)
      (hadd : r.add s.supply payload place = .ok (id, changed, left)) :
      Performs s (.add rev payload place) (.object id) (s.update rev (changed, left))
  | write {rev : String} {updates : List (ObjectId × Payload)} {r changed : Revision}
      {left : Supply} (hr : s.revision? rev = some r)
      (hwrite : r.write s.supply updates = .ok (changed, left)) :
      Performs s (.write rev updates) .done (s.update rev (changed, left))
  | apply {rev : String} {sel : Selection} {change : Change} {r changed : Revision}
      {left : Supply} (hr : s.revision? rev = some r)
      (happly : r.apply s.supply sel change = .ok (changed, left)) :
      Performs s (.apply rev sel change) .done (s.update rev (changed, left))
  | delete {rev : String} {id : ObjectId} {r changed : Revision} (hr : s.revision? rev = some r)
      (hdelete : r.delete id = .ok changed) :
      Performs s (.delete rev id) .done (s.put rev changed)
  | deleteSelected {rev : String} {sel : Selection} {r changed : Revision}
      (hr : s.revision? rev = some r) (hdelete : r.deleteSelected sel = .ok changed) :
      Performs s (.deleteSelected rev sel) .done (s.put rev changed)
  | relocate {rev : String} {id : ObjectId} {place : Placement} {r changed : Revision}
      (hr : s.revision? rev = some r) (hrelocate : r.relocate id place = .ok changed) :
      Performs s (.relocate rev id place) .done (s.put rev changed)
  | copy {rev source : String} {id copied : ObjectId} {r other changed : Revision}
      {left : Supply} (hr : s.revision? rev = some r) (hother : s.revision? source = some other)
      (hcopy : r.copy s.supply other id = .ok (copied, changed, left)) :
      Performs s (.copy rev source id) (.object copied) (s.update rev (changed, left))
  | copySelected {rev source : String} {sel copies : Selection} {r other changed : Revision}
      {left : Supply} (hr : s.revision? rev = some r) (hother : s.revision? source = some other)
      (hcopy : r.copySelected s.supply other sel = .ok (copies, changed, left)) :
      Performs s (.copySelected rev source sel) (.copies copies) (s.update rev (changed, left))

theorem perform_eq_ok_iff :
    s.perform command = .ok (answer, next) ↔ s.Performs command answer next := by
  constructor
  · intro h
    simp only [perform.eq_def, ofStore] at h
    cases command with
      simp only [bind_eq_ok_iff, revision_eq_ok_iff, mapError_eq_ok_iff] at h
    | start rev | drop rev =>
        cases h
        constructor
    | fork rev source | finalize rev =>
        obtain ⟨r, hr, h⟩ := h
        cases h
        constructor
        exact hr
    | add rev payload place | write rev updates | apply rev sel change =>
        obtain ⟨r, hr, changed, hchanged, h⟩ := h
        cases h
        constructor
        · exact hr
        · exact hchanged
    | delete rev id | deleteSelected rev sel | relocate rev id place =>
        obtain ⟨r, hr, changed, hchanged, h⟩ := h
        cases h
        constructor
        · exact hr
        · exact hchanged
    | copy rev source id | copySelected rev source sel =>
        obtain ⟨r, hr, other, hother, changed, hchanged, h⟩ := h
        cases h
        constructor
        · exact hr
        · exact hother
        · exact hchanged
  · intro h
    cases h with
      simp only [perform, ofStore, bind_eq_ok_iff, revision_eq_ok_iff, mapError_eq_ok_iff]
    | start rev | drop rev => rfl
    | fork rev hr => exact ⟨_, hr, rfl⟩
    | finalize hr => exact ⟨_, hr, rfl⟩
    | copy hr hother hchanged | copySelected hr hother hchanged =>
        exact ⟨_, hr, _, hother, _, hchanged, rfl⟩
    | _ hr hchanged => exact ⟨_, hr, _, hchanged, rfl⟩

theorem Performs.step_eq (h : s.Performs command answer next) :
    s.step command = (.ok answer, next) :=
  step_eq_of_perform (perform_eq_ok_iff.mpr h)

@[simp] theorem revision?_update (s : Session) (name : String) (changed : Revision × Supply)
    (other : String) : (s.update name changed).revision? other =
      if name = other then some changed.1 else s.revision? other := by
  simp [revision?, update, put, Std.ExtTreeMap.getElem?_insert]

@[simp] theorem revision?_update_self (s : Session) (name : String) (changed : Revision × Supply) :
    (s.update name changed).revision? name = some changed.1 :=
  (revision?_update s name changed name).trans (if_pos rfl)

theorem ext_revision? (h : ∀ name, s.revision? name = next.revision? name)
    (hsupply : s.supply = next.supply) : s = next := by
  cases s
  cases next
  cases hsupply
  congr 1
  exact Std.ExtTreeMap.ext_getElem? h

theorem update_eq_self (hr : s.revision? name = some r) : s.update name (r, s.supply) = s := by
  refine ext_revision? (fun other => ?_) rfl
  rw [revision?_update]
  split
  · rename_i h
    exact h ▸ hr.symm
  · rfl

/-- The tables that a command can start from. -/
inductive AtHand (s : Session) : Table → Prop
  | empty : AtHand s .empty
  | held {name : String} {r : Revision} (h : s.revision? name = some r) : AtHand s r.table

inductive Effect (s : Session) : Session → Prop
  | update {name : String} {r : Revision} {left : Supply} {source t : Table}
      (hsource : s.AtHand source) (ht : s.AtHand t)
      (hedits : Edits source (t, s.supply) (r.table, left)) : Effect s (s.update name (r, left))
  | drop (name : String) : Effect s { s with revisions := s.revisions.erase name }

theorem effect_of_perform (wf : ∀ {t}, s.AtHand t → t.WellFormed)
    (h : s.perform command = .ok (answer, next)) : Effect s next := by
  cases perform_eq_ok_iff.mp h with
  | start rev => exact .update .empty .empty .refl
  | fork rev hr | finalize hr => exact .update .empty (.held hr) .refl
  | drop rev => exact .drop rev
  | add hr hadd => exact .update .empty (.held hr) (Revision.edits_of_add hadd)
  | write hr hwrite | apply hr hwrite =>
      exact .update .empty (.held hr) (Revision.edits_of_write hwrite)
  | delete hr hdelete => exact .update .empty (.held hr) (Revision.edits_of_delete hdelete)
  | deleteSelected hr hdelete =>
      exact .update .empty (.held hr) (Revision.edits_of_deleteSelected hdelete)
  | relocate hr hrelocate =>
      exact .update .empty (.held hr) (Revision.edits_of_relocate hrelocate)
  | copy hr hother hcopy =>
      exact .update (.held hother) (.held hr) (Revision.edits_of_copy (wf (.held hother)) hcopy)
  | copySelected hr hother hcopy =>
      exact .update (.held hother) (.held hr)
        (Revision.edits_of_copySelected (wf (.held hother)) hcopy)

theorem atHand_update {changed : Revision × Supply} (h : (s.update name changed).AtHand t) :
    t = changed.1.table ∨ s.AtHand t := by
  cases h with
  | empty => exact .inr .empty
  | held hr =>
      rw [revision?_update] at hr
      split at hr
      · cases hr
        exact .inl rfl
      · exact .inr (.held hr)

theorem atHand_erase
    (h : AtHand { s with revisions := s.revisions.erase name } t) : s.AtHand t := by
  cases h with
  | empty => exact .empty
  | @held other r hr =>
      simp only [revision?, Std.ExtTreeMap.getElem?_erase] at hr
      split at hr
      · cases hr
      · have hold : s.revision? other = some r := hr
        exact .held hold

theorem Effect.sound (h : Effect s next) (hs : ∀ {t}, s.AtHand t → t.Sound s.supply)
    (ht : next.AtHand t) : t.Sound next.supply := by
  cases h with
  | update hsource hu hedits =>
      rcases atHand_update ht with rfl | ht
      · exact hedits.sound (hs hsource) (hs hu)
      · exact (hs ht).remains hedits.remains
  | drop name => exact hs (atHand_erase ht)

namespace Reachable

theorem sound_of_atHand (h : s.Reachable) (ht : s.AtHand t) : t.Sound s.supply := by
  induction h generalizing t with
  | start supply =>
      cases ht with
      | empty => exact Table.sound_empty _
      | held hr => simp [revision?] at hr
  | @step s command _ ih =>
      unfold Session.step at ht ⊢
      cases hperform : s.perform command with
      | error reason =>
          rw [hperform] at ht
          exact ih ht
      | ok result =>
          rw [hperform] at ht
          have heffect := effect_of_perform (fun ht => (ih ht).wellFormed) hperform
          exact heffect.sound ih ht

theorem sound (h : s.Reachable) (hr : s.revision? name = some r) : r.table.Sound s.supply :=
  h.sound_of_atHand (.held hr)

end Reachable

end Schematic.Session
