import Schematic.Proofs.Session.Reachable

namespace Schematic

namespace Command

/-- The revision that a command changes, puts in place or lets go of. -/
def subject : Command → String
  | .start rev | .fork rev _ | .finalize rev | .drop rev => rev
  | .add rev _ _ | .write rev _ | .apply rev _ _ => rev
  | .delete rev _ | .deleteSelected rev _ | .relocate rev _ _ => rev
  | .copy rev _ _ | .copySelected rev _ _ => rev

def reads : Command → List String
  | .fork _ source | .copy _ source _ | .copySelected _ source _ => [source]
  | _ => []

/-- Whether a command works on the revision that is there. The others put a new one in its place, or
none. -/
def works : Command → Bool
  | .start _ | .fork _ _ | .drop _ => false
  | _ => true

def mutates : Command → Bool
  | .finalize _ => false
  | command => command.works

def creates : Command → Bool
  | .add _ _ _ | .copy _ _ _ | .copySelected _ _ _ => true
  | _ => false

/-- The revisions that have to be there for a command. -/
def names (command : Command) : List String :=
  if command.works then command.subject :: command.reads else command.reads

/-- The objects that a command deletes from a revision, not counting what lies below them. -/
def deleted (r : Revision) : Command → List ObjectId
  | .delete _ id => [id]
  | .deleteSelected _ sel => r.selected sel
  | _ => []

def updates (r : Revision) : Command → List (ObjectId × Payload)
  | .write _ updates => updates
  | .apply _ sel change => r.updates sel change
  | _ => []

theorem works_of_mutates {command : Command} (h : command.mutates = true) :
    command.works = true := by
  cases command with
  | finalize rev => rfl
  | _ => exact h

end Command

namespace Session

variable {s next : Session} {command : Command} {answer : Answer} {name : String} {r : Revision}

theorem run_cons (s : Session) (command : Command) (commands : List Command) :
    s.run (command :: commands) = ((s.step command).1 :: ((s.step command).2.run commands).1,
      ((s.step command).2.run commands).2) := rfl

theorem perform_cases (h : s.perform command = .ok (answer, next)) :
    (∃ changed, next = s.update command.subject changed) ∨
      next = { s with revisions := s.revisions.erase command.subject } := by
  cases perform_eq_ok_iff.mp h with
  | drop rev => exact .inr rfl
  | start rev | fork rev hr | finalize hr => exact .inl ⟨(_, _), rfl⟩
  | delete hr hchanged | deleteSelected hr hchanged | relocate hr hchanged =>
      exact .inl ⟨(_, _), rfl⟩
  | add | write | apply | copy | copySelected => exact .inl ⟨_, rfl⟩

/-- What a command puts in place of its subject that does not work on the revision that is there. -/
inductive PutInPlace (s : Session) : Command → Option Revision → Prop
  | start (rev : String) : PutInPlace s (.start rev) (some {})
  | fork {rev source : String} {r : Revision} (hr : s.revision? source = some r) :
      PutInPlace s (.fork rev source) (some r.fork)
  | drop (rev : String) : PutInPlace s (.drop rev) none

theorem putInPlace_of_perform (hworks : command.works = false)
    (h : s.perform command = .ok (answer, next)) :
    s.PutInPlace command (next.revision? command.subject) := by
  cases perform_eq_ok_iff.mp h with
  | start rev => exact revision?_update_self s rev ({}, s.supply) ▸ .start rev
  | @fork rev source r hr => exact revision?_update_self s rev (r.fork, s.supply) ▸ .fork hr
  | drop rev =>
      have hnone : Session.revision? { s with revisions := s.revisions.erase rev } rev = none := by
        simp [revision?]
      exact hnone ▸ .drop rev
  | _ => cases hworks

theorem revision?_step_of_ne (s : Session) (hname : command.subject ≠ name) :
    (s.step command).2.revision? name = s.revision? name := by
  unfold step
  cases hperform : s.perform command with
  | error reason => rfl
  | ok result =>
      obtain ⟨answer, next⟩ := result
      rcases perform_cases hperform with ⟨changed, rfl⟩ | rfl
      · simp [hname]
      · simp [revision?, Std.ExtTreeMap.getElem?_erase, hname]

theorem revision?_step_fork (rev : String) (hr : s.revision? name = some r) :
    (s.step (.fork rev name)).2.revision? rev = some r.fork := by
  rw [(Performs.fork rev hr).step_eq]
  exact revision?_update_self s rev (r.fork, s.supply)

theorem Reachable.remains_step (h : s.Reachable) (command : Command) :
    (s.step command).2.supply.Remains s.supply := by
  unfold Session.step
  cases hperform : s.perform command with
  | error reason => exact .refl _
  | ok result =>
      obtain ⟨answer, next⟩ := result
      cases effect_of_perform (fun ht => (h.sound_of_atHand ht).wellFormed) hperform with
      | update _ _ hedits => exact Edits.remains hedits
      | drop _ => exact .refl _

end Session

end Schematic
