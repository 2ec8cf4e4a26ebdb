import Mathlib.Logic.Function.Basic
import Schematic.Proofs.Session.Reachable
import Schematic.Proofs.Store.View

namespace Schematic

/-- Every instance in a table has the payload that is on record for its stamp. -/
def Table.AgreesWith (t : Table) (record : Nat → Payload) : Prop :=
  ∀ (id : ObjectId) (entry : Entry), t.get? id = some entry →
    entry.state.payload = record entry.state.stamp

variable {source t : Table} {a b : Table × Supply} {supply : Supply}
  {record later : Nat → Payload}

theorem Table.AgreesWith.congr (h : t.AgreesWith record) (ht : t.Sound supply)
    (hlater : ∀ n < supply.nextStamp, later n = record n) : t.AgreesWith later := by
  intro id entry hentry
  rw [hlater _ (ht.issued hentry).stamp_lt]
  exact h id entry hentry

/-- An edit puts at most one more payload on record, under a stamp that was not in use. -/
theorem Edit.exists_record (h : Edit source a b) (hsource : source.Sound a.2)
    (ha : a.1.Sound a.2) (hrecord : source.AgreesWith record) (harecord : a.1.AgreesWith record) :
    ∃ later : Nat → Payload,
      (∀ n < a.2.nextStamp, later n = record n) ∧ b.1.AgreesWith later := by
  obtain ⟨kept, hkept⟩ := h.exists_instance
  have hlater : ∀ n < a.2.nextStamp, Function.update record a.2.nextStamp kept n = record n :=
    fun n hn => Function.update_of_ne (Nat.ne_of_lt hn) _ _
  refine ⟨_, hlater, fun id entry hentry => ?_⟩
  rcases hkept hentry with ⟨old, hold, hstate⟩ | ⟨-, original, shared, hshared, hstate⟩ |
    ⟨-, -, hstate, -⟩
  · exact hstate ▸ harecord.congr ha hlater _ _ hold
  · exact hstate ▸ hrecord.congr hsource hlater _ _ hshared
  · rw [hstate, Function.update_self]

theorem Edits.exists_record (h : Edits source a b) (hsource : source.Sound a.2)
    (ha : a.1.Sound a.2) (hrecord : source.AgreesWith record) (harecord : a.1.AgreesWith record) :
    ∃ later : Nat → Payload,
      (∀ n < a.2.nextStamp, later n = record n) ∧ b.1.AgreesWith later := by
  induction h with
  | refl => exact ⟨record, fun _ _ => rfl, harecord⟩
  | @tail b c hedits hedit ih =>
      obtain ⟨middle, hmiddle, hb⟩ := ih
      have hremains : b.2.Remains a.2 := Edits.remains hedits
      obtain ⟨later, hlater, hc⟩ := hedit.exists_record (hsource.remains hremains)
        (Edits.sound hedits hsource ha) (hrecord.congr hsource hmiddle) hb
      refine ⟨later, fun n hn => ?_, hc⟩
      rw [hlater n (Nat.lt_of_lt_of_le hn hremains.2), hmiddle n hn]

namespace Session

variable {s : Session}

theorem Reachable.exists_record (h : s.Reachable) :
    ∃ record : Nat → Payload, ∀ {t}, s.AtHand t → t.AgreesWith record := by
  induction h with
  | start supply =>
      refine ⟨fun _ => .blank .text, fun {t} ht id entry hentry => ?_⟩
      cases ht with
      | empty => simp [Table.get?_empty] at hentry
      | held hr => simp [revision?] at hr
  | @step s command hs ih =>
      obtain ⟨record, hrecord⟩ := ih
      unfold Session.step
      cases hperform : s.perform command with
      | error reason => exact ⟨record, hrecord⟩
      | ok result =>
          obtain ⟨answer, next⟩ := result
          have hsound : ∀ {t}, s.AtHand t → t.Sound s.supply := hs.sound_of_atHand
          cases effect_of_perform (fun ht => (hsound ht).wellFormed) hperform with
          | drop name => exact ⟨record, fun ht => hrecord (atHand_erase ht)⟩
          | update hsource hu hedits =>
              obtain ⟨later, hlater, hnew⟩ := Edits.exists_record hedits (hsound hsource)
                (hsound hu) (hrecord hsource) (hrecord hu)
              refine ⟨later, fun {t} ht => ?_⟩
              rcases atHand_update ht with rfl | ht
              · exact hnew
              · exact (hrecord ht).congr (hsound ht) hlater

theorem Reachable.state_eq_of_stamp_eq (h : s.Reachable) {name name' : String} {r r' : Revision}
    (hr : s.revision? name = some r) (hr' : s.revision? name' = some r') {x y : ObjectId}
    {old new : ObjectState} (hold : r.state? x = some old) (hnew : r'.state? y = some new)
    (hstamp : old.stamp = new.stamp) : old = new := by
  obtain ⟨record, hrecord⟩ := h.exists_record
  obtain ⟨entry, hentry, rfl⟩ := Option.map_eq_some_iff.mp hold
  obtain ⟨entry', hentry', rfl⟩ := Option.map_eq_some_iff.mp hnew
  have hpayload : entry.state.payload = entry'.state.payload := by
    rw [hrecord (.held hr) _ _ hentry, hrecord (.held hr') _ _ hentry', hstamp]
  cases hstate : entry.state
  cases hstate' : entry'.state
  rw [hstate, hstate'] at hpayload hstamp
  rw [ObjectState.mk.injEq]
  exact ⟨hstamp, hpayload⟩

/-- The difference of any two revisions of a session is complete, and what a view shows of a
revision determines its lists and the order of its objects. -/
theorem Reachable.difference_isComplete (h : s.Reachable) {name name' : String}
    {source target : Revision} (hsource : s.revision? name = some source)
    (htarget : s.revision? name' = some target) :
    Difference.IsComplete source target ∧
      ∀ {s' : Session}, s'.Reachable → ∀ {other : String} {r : Revision},
        s'.revision? other = some r → r.view = target.view →
          r.objects = target.objects ∧ ∀ place, r.attachedTo place = target.attachedTo place := by
  have wf := (h.sound hsource).wellFormed
  have wf' := (h.sound htarget).wellFormed
  refine ⟨Difference.isComplete wf wf' fun id old new hold hnew =>
    h.state_eq_of_stamp_eq hsource htarget hold hnew, ?_⟩
  intro s' h' other r hr hview
  have htable := Revision.table_eq_of_view_eq (h'.sound hr).wellFormed wf' hview
  refine ⟨?_, fun place => ?_⟩
  · rw [Revision.objects, htable, Revision.objects]
  · rw [Revision.attachedTo, htable, Revision.attachedTo]

def reworked : Session :=
  (nested.run [.write "b" [(⟨3⟩, .text { color := 1 })], .delete "b" ⟨2⟩,
    .relocate "b" ⟨4⟩ ⟨some ⟨1⟩, none⟩, .add "b" (.blank .text) .top]).2

theorem difference_isComplete_reworked :
    ∃ source target, reworked.revision? "a" = some source ∧
      reworked.revision? "b" = some target ∧
        Difference.between source target = ⟨[⟨5⟩], [⟨2⟩], [⟨4⟩, ⟨3⟩]⟩ ∧
          Difference.IsComplete source target ∧
            (reworked.Reachable → ∀ {other : String} {r : Revision},
              reworked.revision? other = some r → r.view = target.view →
                r.objects = target.objects ∧
                  ∀ place, r.attachedTo place = target.attachedTo place) := by
  have h : reworked.Reachable := reachable_nested.run _
  obtain ⟨hcomplete, hview⟩ := h.difference_isComplete
    (show reworked.revision? "a" = some _ from rfl) (show reworked.revision? "b" = some _ from rfl)
  exact ⟨_, _, rfl, rfl, rfl, hcomplete, hview⟩

end Session

end Schematic
