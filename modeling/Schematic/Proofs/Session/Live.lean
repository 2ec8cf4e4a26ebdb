import Schematic.Proofs.Session.History
import Schematic.Proofs.Session.Instances
import Schematic.Proofs.Session.Refusal
import Schematic.Proofs.Store.Instance

/-!
`Session.Loses` says which entries lose their instance to a command. An instance that was there is
there after a command if an entry that has not lost it held it, and every other instance is new.
-/

namespace Schematic

def Command.brings : Command → Bool
  | .add _ _ _ | .write _ _ | .apply _ _ _ => true
  | _ => false

namespace Session

def Holds (s : Session) (name : String) (id : ObjectId) (state : ObjectState) : Prop :=
  ∃ r, s.revision? name = some r ∧ r.state? id = some state

/-- The instances that are held in some revision. -/
def live (s : Session) : Set ObjectState := {state | ∃ name id, s.Holds name id state}

def liveWithout (s : Session) (lost : String → ObjectId → Prop) : Set ObjectState :=
  {state | ∃ name id, s.Holds name id state ∧ ¬ lost name id}

/-- The entries of a revision that lose their instance if a command succeeds: an entry is taken away
by the command or given another instance, or the revision is let go of for nothing or for another
one. -/
def Loses (s : Session) (command : Command) (name : String) (id : ObjectId) : Prop :=
  command.subject = name ∧
    if command.works then ∃ r, s.revision? name = some r ∧
      (id ∈ (command.deleted r).flatMap r.table.subtree ∨ r.Replaces (command.updates r) id)
    else name ∉ command.reads

variable {s next : Session} {command : Command} {answer : Answer} {name rev : String}
  {r changed : Revision} {id : ObjectId} {state : ObjectState}
  {lost : String → ObjectId → Prop} {updates : List (ObjectId × Payload)}

theorem liveWithout_eq_live (h : ∀ name id, ¬ lost name id) :
    s.liveWithout lost = s.live := by
  ext state
  simp only [liveWithout, live, Set.mem_ofPred_eq, h, not_false_eq_true, and_true]

theorem liveWithout_congr {lost' : String → ObjectId → Prop}
    (h : ∀ name id r, s.revision? name = some r → r.contains id = true →
      (lost name id ↔ lost' name id)) : s.liveWithout lost = s.liveWithout lost' := by
  ext state
  refine exists_congr fun name => exists_congr fun id => and_congr_right ?_
  rintro ⟨r, hr, hstate⟩
  rw [h name id r hr (Revision.contains_iff_exists_state?.mpr ⟨state, hstate⟩)]

theorem liveWithout_subset (s : Session) (lost : String → ObjectId → Prop) :
    s.liveWithout lost ⊆ s.live := by
  rintro state ⟨name, id, hholds, -⟩
  exact ⟨name, id, hholds⟩

theorem holds_congr (h : next.revision? name = s.revision? name) :
    next.Holds name id state ↔ s.Holds name id state := by
  rw [Holds, Holds, h]

theorem holds_iff (hr : s.revision? name = some r) :
    s.Holds name id state ↔ r.state? id = some state := by
  simp [Holds, hr]

theorem Reachable.stamp_lt (h : s.Reachable) (hholds : s.Holds name id state) :
    state.stamp < s.supply.nextStamp := by
  obtain ⟨r, hr, hstate⟩ := hholds
  obtain ⟨entry, hentry, rfl⟩ := Option.map_eq_some_iff.mp hstate
  exact ((h.sound hr).issued hentry).stamp_lt

theorem Reachable.eq_of_stamp_eq (h : s.Reachable) {state' : ObjectState} (hstate : state ∈ s.live)
    (hstate' : state' ∈ s.live) (hstamp : state.stamp = state'.stamp) : state = state' := by
  obtain ⟨name, x, r, hr, hx⟩ := hstate
  obtain ⟨name', y, r', hr', hy⟩ := hstate'
  exact h.state_eq_of_stamp_eq hr hr' hx hy hstamp

/-! ### One command -/

theorem loses_iff_of_works (hworks : command.works = true)
    (hr : s.revision? command.subject = some r) : s.Loses command command.subject id ↔
      id ∈ (command.deleted r).flatMap r.table.subtree ∨ r.Replaces (command.updates r) id := by
  simp [Loses, hworks, hr]

theorem not_loses_of_idle (hworks : command.works = true) (hdeleted : ∀ r, command.deleted r = [])
    (hupdates : ∀ r, command.updates r = []) : ¬ s.Loses command name id := by
  rintro ⟨-, hlost⟩
  rw [if_pos hworks] at hlost
  obtain ⟨r, -, hlost⟩ := hlost
  rw [hdeleted, hupdates] at hlost
  rcases hlost with hlost | hlost
  · cases hlost
  · exact Revision.not_replaces_nil hlost

theorem not_loses_of_creates (hcreates : command.creates = true) : ¬ s.Loses command name id := by
  cases command with
  | add _ _ _ | copy _ _ _ | copySelected _ _ _ =>
      exact not_loses_of_idle rfl (fun _ => rfl) fun _ => rfl
  | _ => cases hcreates

theorem Reachable.live_or_new (hs : s.Reachable) (h : s.perform command = .ok (answer, next))
    (hholds : next.Holds name id state) : state ∈ s.live ∨ s.supply.nextStamp ≤ state.stamp := by
  have hlive : ∀ {t : Table} {id : ObjectId} {entry : Entry}, s.AtHand t →
      t.get? id = some entry → entry.state ∈ s.live := by
    intro t id entry ht hentry
    cases ht with
    | empty => simp [Table.get?_empty] at hentry
    | held hr => exact ⟨_, id, _, hr, Option.map_eq_some_iff.mpr ⟨entry, hentry, rfl⟩⟩
  obtain ⟨r, hr, hstate⟩ := hholds
  obtain ⟨entry, hentry, rfl⟩ := Option.map_eq_some_iff.mp hstate
  cases effect_of_perform (fun ht => (hs.sound_of_atHand ht).wellFormed) h with
  | drop name => exact .inl (hlive (atHand_erase (.held hr)) hentry)
  | update hsource ht hedits =>
      rcases atHand_update (.held hr) with htable | hold
      · rw [htable] at hentry
        rcases hedits.state_cases hentry with ⟨old, hold, heq⟩ | ⟨_, shared, hshared, heq⟩ | hle
        · exact .inl (heq ▸ hlive ht hold)
        · exact .inl (heq ▸ hlive hsource hshared)
        · exact .inr hle
      · exact .inl (hlive hold hentry)

theorem holds_of_ne (h : s.perform command = .ok (answer, next)) (hname : command.subject ≠ name) :
    next.Holds name id state ↔ s.Holds name id state := by
  have hsame := revision?_step_of_ne s hname
  rw [step_eq_of_perform h] at hsame
  exact holds_congr hsame

/-- The revision that a command works on keeps just what it does not lose, and what is new in it was
held elsewhere or is new. -/
theorem Reachable.holds_subject_of_works (hs : s.Reachable) (hworks : command.works = true)
    (h : s.perform command = .ok (answer, next)) (hlt : state.stamp < s.supply.nextStamp) :
    (next.Holds command.subject id state → state ∈ s.liveWithout (s.Loses command)) ∧
      (s.Holds command.subject id state → ¬ s.Loses command command.subject id →
        next.Holds command.subject id state) := by
  obtain ⟨r, changed, left, hr, rfl, hchanged, hcreates⟩ := hs.changed_of_perform hworks h
  have hself := revision?_update_self s command.subject (changed, left)
  rw [holds_iff hr, holds_iff hself, loses_iff_of_works hworks hr, not_or]
  constructor
  · intro hstate
    have hnext := Revision.contains_iff_exists_state?.mpr ⟨state, hstate⟩
    rcases (hchanged.contains_iff id).mp hnext with ⟨hid, hkept⟩ | ⟨hle, hlt'⟩
    · have hreplaces : ¬ r.Replaces (command.updates r) id := fun hreplaces =>
        absurd (hchanged.stamp_le id state hreplaces hstate) (Nat.not_le.mpr hlt)
      refine ⟨_, id, (holds_iff hr).mpr ?_, ?_⟩
      · rw [← hchanged.state?_eq id hid hnext hreplaces, hstate]
      · rw [loses_iff_of_works hworks hr, not_or]
        exact ⟨hkept, hreplaces⟩
    · have hmakes : command.creates = true := by
        by_contra hnone
        have := hcreates (eq_false_of_ne_true hnone)
        omega
      rw [liveWithout_eq_live fun name id => not_loses_of_creates hmakes]
      exact (hs.live_or_new h ((holds_iff hself).mpr hstate)).resolve_right (Nat.not_le.mpr hlt)
  · rintro hstate ⟨hkept, hreplaces⟩
    have hid := Revision.contains_iff_exists_state?.mpr ⟨state, hstate⟩
    have hnext := (hchanged.contains_iff id).mpr (.inl ⟨hid, hkept⟩)
    rw [hchanged.state?_eq id hid hnext hreplaces, hstate]

theorem holds_subject_of_not_works (hworks : command.works = false)
    (h : s.perform command = .ok (answer, next)) :
    (next.Holds command.subject id state → state ∈ s.liveWithout (s.Loses command)) ∧
      (s.Holds command.subject id state → ¬ s.Loses command command.subject id →
        next.Holds command.subject id state) := by
  have hloses : ∀ name id, s.Loses command name id ↔
      command.subject = name ∧ name ∉ command.reads := by
    simp [Loses, hworks]
  have hput := putInPlace_of_perform hworks h
  rw [hloses, not_and_not_right]
  unfold Holds
  generalize next.revision? command.subject = put at hput ⊢
  cases hput with
  | start rev => simp [Revision.state?, Table.get?_empty, Command.reads]
  | drop rev => simp [Command.reads]
  | @fork rev source r hr =>
      constructor
      · rintro ⟨r', hr', hstate⟩
        cases hr'
        refine ⟨source, id, ⟨r, hr, hstate⟩, ?_⟩
        rw [hloses]
        rintro ⟨-, hreads⟩
        exact hreads (List.mem_singleton_self source)
      · rintro ⟨r', hr', hstate⟩ hself
        have hsource : rev = source := List.mem_singleton.mp (hself rfl)
        subst hsource
        cases hr.symm.trans hr'
        exact ⟨r.fork, rfl, hstate⟩

/-- Of the instances that were there those remain that are held by an entry which does not lose
them. -/
theorem Reachable.mem_live_iff (hs : s.Reachable) (h : s.perform command = .ok (answer, next))
    (hlt : state.stamp < s.supply.nextStamp) :
    state ∈ next.live ↔ state ∈ s.liveWithout (s.Loses command) := by
  have hsubject : ∀ id, (next.Holds command.subject id state →
      state ∈ s.liveWithout (s.Loses command)) ∧ (s.Holds command.subject id state →
        ¬ s.Loses command command.subject id → next.Holds command.subject id state) := by
    intro id
    cases hworks : command.works with
    | true => exact hs.holds_subject_of_works hworks h hlt
    | false => exact holds_subject_of_not_works hworks h
  constructor
  · rintro ⟨name, id, hholds⟩
    by_cases hname : command.subject = name
    · subst hname
      exact (hsubject id).1 hholds
    · exact ⟨name, id, (holds_of_ne h hname).mp hholds, fun hloses => hname hloses.1⟩
  · rintro ⟨name, id, hholds, hkept⟩
    by_cases hname : command.subject = name
    · subst hname
      exact ⟨_, id, (hsubject id).2 hholds hkept⟩
    · exact ⟨name, id, (holds_of_ne h hname).mpr hholds⟩

/-! ### New instances -/

theorem Reachable.nextStamp_of_perform (hs : s.Reachable)
    (h : s.perform command = .ok (answer, next)) (hbrings : command.brings = false) :
    next.supply.nextStamp = s.supply.nextStamp := by
  cases perform_eq_ok_iff.mp h with
  | add | write | apply => cases hbrings
  | start rev | drop rev | fork rev hr | finalize hr => rfl
  | delete | deleteSelected | relocate => rfl
  | copy hr hother hcopy => exact Revision.nextStamp_of_copy (hs.sound hother).wellFormed hcopy
  | copySelected hr hother hcopy =>
      exact Revision.nextStamp_of_copySelected (hs.sound hother).wellFormed hcopy

theorem Reachable.of_perform (hs : s.Reachable) (h : s.perform command = .ok (answer, next)) :
    next.Reachable := by
  have hstep := hs.step command
  rwa [step_eq_of_perform h] at hstep

theorem Reachable.live_eq_of_not_brings (hs : s.Reachable)
    (h : s.perform command = .ok (answer, next)) (hbrings : command.brings = false) :
    next.live = s.liveWithout (s.Loses command) := by
  ext state
  constructor
  · intro hstate
    obtain ⟨name, id, hholds⟩ := hstate
    have hlt := (hs.of_perform h).stamp_lt hholds
    rw [hs.nextStamp_of_perform h hbrings] at hlt
    exact (hs.mem_live_iff h hlt).mp ⟨name, id, hholds⟩
  · intro hstate
    obtain ⟨name, id, hholds⟩ := liveWithout_subset s _ hstate
    exact (hs.mem_live_iff h (hs.stamp_lt hholds)).mpr hstate

theorem exists_holds_of_add {payload : Payload} {place : Placement}
    (h : s.perform (.add rev payload place) = .ok (.object id, next)) :
    ∃ state, state.stamp = s.supply.nextStamp ∧ state.payload = payload.normalize ∧
      next.Holds rev id state ∧ next.supply.nextStamp = s.supply.nextStamp + 1 := by
  cases perform_eq_ok_iff.mp h with | add hr hadd =>
  obtain ⟨-, -, kept, hkept, hresult⟩ := Revision.add_eq_ok_iff.mp hadd
  cases hresult
  refine ⟨⟨s.supply.nextStamp, kept⟩, rfl, (Payload.accept_eq_ok_iff.mp hkept).2, ?_, rfl⟩
  refine (holds_iff (revision?_update_self s rev _)).mpr ?_
  rw [Revision.state?, Table.get?_insert, if_pos rfl]
  rfl

/-- A new object holds a new instance, which is the only one. -/
theorem Reachable.live_of_add (hs : s.Reachable) {payload : Payload} {place : Placement}
    (h : s.perform (.add rev payload place) = .ok (.object id, next)) :
    ∃ state ∉ s.live, state.payload = payload.normalize ∧ next.Holds rev id state ∧
      next.live = insert state s.live := by
  obtain ⟨state, hstamp, hpayload, hnew, hleft⟩ := exists_holds_of_add h
  have hnext := hs.of_perform h
  have hkeeps : ∀ other : ObjectState, other.stamp < s.supply.nextStamp →
      (other ∈ next.live ↔ other ∈ s.live) := by
    intro other hlt
    rw [hs.mem_live_iff h hlt, liveWithout_eq_live fun _ _ => not_loses_of_creates rfl]
  refine ⟨state, ?_, hpayload, hnew, ?_⟩
  · rintro ⟨name, x, hholds⟩
    exact Nat.lt_irrefl _ (hstamp ▸ hs.stamp_lt hholds)
  · ext other
    constructor
    · intro hother
      by_cases hlt : other.stamp < s.supply.nextStamp
      · exact .inr ((hkeeps other hlt).mp hother)
      · refine .inl (hnext.eq_of_stamp_eq hother ⟨_, _, hnew⟩ ?_)
        obtain ⟨name, x, hholds⟩ := hother
        have := hnext.stamp_lt hholds
        omega
    · rintro (rfl | hother)
      · exact ⟨_, _, hnew⟩
      · obtain ⟨name, x, hholds⟩ := hother
        exact (hkeeps other (hs.stamp_lt hholds)).mpr ⟨name, x, hholds⟩

/-- What becomes of the instances when updates have made `changed` of the revision `r`: each object
whose payload has changed has an instance of its own that is new, and of the instances that were
replaced those are gone that no other entry holds. -/
structure Rewritten (s : Session) (name : String) (r changed : Revision) (next : Session) :
    Prop where
  bijOn : Set.BijOn changed.state? {id | r.Differs changed id} (some '' (next.live \ s.live))
  mem_removed_iff : ∀ state, state ∈ s.live \ next.live ↔
    (∃ id, r.Differs changed id ∧ r.state? id = some state) ∧
      ∀ other id, s.Holds other id state → other = name ∧ r.Differs changed id

theorem Reachable.not_mem_live_iff (hs : s.Reachable) (h : s.perform command = .ok (answer, next))
    (hlive : state ∈ s.live) :
    state ∉ next.live ↔ ∀ name id, s.Holds name id state → s.Loses command name id := by
  obtain ⟨name, id, hholds⟩ := hlive
  rw [hs.mem_live_iff h (hs.stamp_lt hholds)]
  simp only [liveWithout, Set.mem_ofPred_eq, not_exists, not_and, not_not]

theorem holds_subject_of_not_mem_live (h : s.perform command = .ok (answer, next))
    (hlive : state ∈ next.live) (hnew : state ∉ s.live) :
    ∃ id, next.Holds command.subject id state := by
  obtain ⟨name, id, hholds⟩ := hlive
  have hname : command.subject = name := by
    by_contra hne
    exact hnew ⟨name, id, (holds_of_ne h hne).mp hholds⟩
  exact ⟨id, hname ▸ hholds⟩

theorem Reachable.rewritten (hs : s.Reachable) (hworks : command.works = true) {left : Supply}
    (hr : s.revision? command.subject = some r) (hdeleted : command.deleted r = [])
    (hwrite : r.write s.supply (command.updates r) = .ok (changed, left))
    (h : s.perform command = .ok (answer, next))
    (hself : next.revision? command.subject = some changed) :
    s.Rewritten command.subject r changed next := by
  have hsound := hs.sound hr
  have hdiffers : ∀ id, r.Replaces (command.updates r) id ↔ r.Differs changed id := fun id =>
    Revision.replaces_iff_differs hsound hwrite
  have hchanged := Revision.changed_of_write hwrite
  have hloses : ∀ id, s.Loses command command.subject id ↔ r.Differs changed id := by
    intro id
    rw [loses_iff_of_works hworks hr, hdeleted, hdiffers, List.flatMap_nil]
    exact or_iff_right List.not_mem_nil
  refine ⟨⟨fun id hid => ?_, fun x hx y hy heq => ?_, ?_⟩, fun state => ?_⟩
  · obtain ⟨state, hstate⟩ := Revision.Differs.exists_state hid
    refine ⟨state, ⟨⟨_, id, (holds_iff hself).mpr hstate⟩, ?_⟩, hstate.symm⟩
    rintro ⟨name, x, hholds⟩
    have hle := hchanged.stamp_le id state ((hdiffers id).mpr hid) hstate
    exact Nat.not_le.mpr (hs.stamp_lt hholds) hle
  · obtain ⟨state, hstate⟩ := Revision.Differs.exists_state hx
    have hle := hchanged.stamp_le x state ((hdiffers x).mpr hx) hstate
    exact Revision.eq_of_stamp_eq_of_write hsound hwrite hstate (heq ▸ hstate) hle rfl
  · rintro _ ⟨state, ⟨hlive, hgone⟩, rfl⟩
    obtain ⟨id, hholds⟩ := holds_subject_of_not_mem_live h hlive hgone
    have hstate := (holds_iff hself).mp hholds
    refine ⟨id, ?_, hstate⟩
    -- An object that does not differ held the same instance before, so that it was live.
    by_contra hsame
    have hnext := Revision.contains_iff_exists_state?.mpr ⟨state, hstate⟩
    have hid : r.contains id = true := by
      rcases (hchanged.contains_iff id).mp hnext with ⟨hid, -⟩ | hnew
      · exact hid
      · have := Revision.nextId_of_write hwrite
        omega
    have hkept := hchanged.state?_eq id hid hnext (mt (hdiffers id).mp hsame)
    exact hgone ⟨_, id, (holds_iff hr).mpr (hkept ▸ hstate)⟩
  · have hlost : state ∈ s.live → (state ∉ next.live ↔
        ∀ other id, s.Holds other id state → other = command.subject ∧ r.Differs changed id) := by
      intro hlive
      rw [hs.not_mem_live_iff h hlive]
      refine forall_congr' fun other => forall_congr' fun x => imp_congr_right fun _ => ?_
      constructor
      · intro hx
        cases hx.1
        exact ⟨rfl, (hloses x).mp hx⟩
      · rintro ⟨rfl, hx⟩
        exact (hloses x).mpr hx
    constructor
    · rintro ⟨hlive, hgone⟩
      have hall := (hlost hlive).mp hgone
      obtain ⟨name, id, hholds⟩ := hlive
      obtain ⟨rfl, hid⟩ := hall name id hholds
      exact ⟨⟨id, hid, (holds_iff hr).mp hholds⟩, hall⟩
    · rintro ⟨⟨id, hid, hstate⟩, hall⟩
      have hlive : state ∈ s.live := ⟨_, id, (holds_iff hr).mpr hstate⟩
      exact ⟨hlive, (hlost hlive).mpr hall⟩

end Session

end Schematic
