import Schematic.Proofs.Session.Sharing
import Schematic.Proofs.Store.Attempt

namespace Schematic

open EStateM (Result)

namespace Session

abbrev Attempt := EStateM Refusal Session

namespace Attempt

def revision (name : String) : Attempt Revision := do
  let s ← get
  check (s.revision name)

/-- Work on a revision. It is put back, with the supply, as the work leaves it, also where the work
fails. -/
def within {α : Type} (name : String) (r : Revision) (work : Revision.Attempt α) : Attempt α :=
  fun s => match work.run (r, s.supply) with
    | .ok a changed => .ok a (s.update name changed)
    | .error e changed => .error (.store e) (s.update name changed)

def perform : Command → Attempt Answer
  | .start rev => do
      modify fun s => s.put rev {}
      return .done
  | .fork rev source => do
      let r ← revision source
      modify fun s => s.put rev r.fork
      return .done
  | .finalize rev => do
      let r ← revision rev
      modify fun s => s.put rev r.finalize
      return .done
  | .drop rev => do
      let s ← get
      set { s with revisions := s.revisions.erase rev }
      return .existed (s.revision? rev).isSome
  | .add rev payload place => do
      let r ← revision rev
      let id ← within rev r (.add payload place)
      return .object id
  | .write rev updates => do
      let r ← revision rev
      within rev r (.write updates)
      return .done
  | .apply rev sel change => do
      let r ← revision rev
      within rev r (.write (r.updates sel change))
      return .done
  | .delete rev id => do
      let r ← revision rev
      within rev r (.delete id)
      return .done
  | .deleteSelected rev sel => do
      let r ← revision rev
      within rev r (.deleteSelected sel)
      return .done
  | .relocate rev id place => do
      let r ← revision rev
      within rev r (.relocate id place)
      return .done
  | .copy rev source id => do
      let r ← revision rev
      let other ← revision source
      let copy ← within rev r (.copy other id)
      return .object copy
  | .copySelected rev source sel => do
      let r ← revision rev
      let other ← revision source
      let copies ← within rev r (.copySelected other sel)
      return .copies copies

variable {s : Session} {name : String} {r : Revision}

theorem yields_revision_bind {α ρ : Type} {f : Revision → Attempt α}
    {g : Revision → Except Refusal ρ} {out : ρ → α × Session}
    (h : ∀ r, s.revision? name = some r → Yields (f r) s (g r) out) :
    Yields (revision name >>= f) s (s.revision name >>= g) out :=
  yields_check_bind (s := s) fun r hr => h r (revision_eq_ok_iff.mp hr)

theorem yields_within_bind {α ρ : Type} {work : Revision.Attempt α} {x : Except StoreError ρ}
    {out : ρ → α × Revision × Supply} {answer : α → Answer} (hr : s.revision? name = some r)
    (h : Yields work (r, s.supply) x out) :
    Yields (within name r work >>= fun a => pure (answer a)) s
      (ofStore x >>= fun c => pure (answer (out c).1, s.update name (out c).2)) id := by
  have hwithin : (within name r work).run s = match x with
      | .ok c => .ok (out c).1 (s.update name (out c).2)
      | .error e => .error (.store e) s := by
    simp only [Yields, EStateM.run] at h
    simp only [within, EStateM.run, h]
    cases x with
    | ok c => rfl
    | error e => exact congrArg (Result.error (Refusal.store e)) (update_eq_self hr)
  unfold Yields
  rw [EStateM.run_bind, hwithin]
  cases x <;> rfl

theorem yields_perform (s : Session) (command : Command) :
    Yields (perform command) s (s.perform command) id := by
  cases command with
  | start rev => rfl
  | drop rev => rfl
  | fork rev source => exact yields_revision_bind fun r _ => rfl
  | finalize rev => exact yields_revision_bind fun r _ => rfl
  | add rev payload place =>
      exact yields_revision_bind fun r hr =>
        (yields_within_bind hr (Revision.Attempt.yields_add r _ payload place) :)
  | write rev updates =>
      exact yields_revision_bind fun r hr =>
        (yields_within_bind hr (Revision.Attempt.yields_write r _ updates) :)
  | apply rev sel change =>
      exact yields_revision_bind fun r hr =>
        (yields_within_bind hr (Revision.Attempt.yields_write r _ _) :)
  | delete rev id =>
      exact yields_revision_bind fun r hr =>
        (yields_within_bind hr (Revision.Attempt.yields_delete r _ id) :)
  | deleteSelected rev sel =>
      exact yields_revision_bind fun r hr =>
        (yields_within_bind hr (Revision.Attempt.yields_deleteSelected r _ sel) :)
  | relocate rev id place =>
      exact yields_revision_bind fun r hr =>
        (yields_within_bind hr (Revision.Attempt.yields_relocate r _ id place) :)
  | copy rev source id =>
      exact yields_revision_bind fun r hr => yields_revision_bind fun other _ =>
        yields_within_bind hr (Revision.Attempt.yields_copy r _ other id)
  | copySelected rev source sel =>
      exact yields_revision_bind fun r hr => yields_revision_bind fun other _ =>
        yields_within_bind hr (Revision.Attempt.yields_copySelected r _ other sel)

end Attempt

/-- An attempt at a command comes to what the command comes to, and where it fails the session is
left as it was. -/
theorem run_attempt (s : Session) (command : Command) : (Attempt.perform command).run s =
    match s.perform command with
    | .ok (answer, next) => .ok answer next
    | .error reason => .error reason s := by
  have h := Attempt.yields_perform s command
  unfold Yields at h
  rw [h]
  cases s.perform command <;> rfl

end Session

namespace SharedSession

open Session (ofStore)

abbrev Attempt := EStateM Refusal SharedSession

namespace Attempt

def handle (name : String) : Attempt Handle := do
  let s ← get
  check (s.handle name)

def editable (h : Handle) : Attempt Table := do
  let s ← get
  check (ofStore (s.view h).editable)

def mint : Attempt ObjectId :=
  modifyGet fun s => (s.supply.mint.1, { s with supply := s.supply.mint.2 })

def stamp : Attempt Nat :=
  modifyGet fun s => (s.supply.stamp.1, { s with supply := s.supply.stamp.2 })

def own (name : String) (h : Handle) (guests : Nat) : Attempt Nat :=
  modifyGet fun s => s.own name h guests

def change (cell : Nat) (f : Table → Table) : Attempt Unit :=
  modify fun s => s.replace cell (f (s.cells cell), s.supply)

def install (cell : Nat) (update : ObjectId × Payload) : Attempt Unit := do
  let stamp ← stamp
  change cell fun t => t.setState update.1 ⟨stamp, update.2⟩

def write (name : String) (h : Handle) (updates : List (ObjectId × Payload)) :
    Attempt Answer := do
  let t ← editable h
  let staged ← check (ofStore (Revision.stage t updates))
  if staged.isEmpty then return .done
  else
    let cell ← own name h 0
    staged.forM (install cell)
    return .done

def copyNext (source cell : Nat) (root : ObjectId) (copies : List (ObjectId × ObjectId))
    (id : ObjectId) : Attempt (List (ObjectId × ObjectId)) := do
  let s ← get
  match (s.cells source).get? id with
  | none => return copies
  | some entry =>
      let copy ← mint
      let parent := if id = root then none else entry.parent.bind fun p => copies.lookup p
      change cell fun t => t.insert copy entry.state parent none
      return (id, copy) :: copies

def copySubtree (source cell : Nat) (root : ObjectId) : Attempt ObjectId := do
  let s ← get
  let copies ← ((s.cells source).subtree root).foldlM (copyNext source cell root) []
  return (copies.lookup root).getD root

def perform : Command → Attempt Answer
  | .start name => do
      modify fun s => s.allocate name { cell := s.unused } .empty
      return .done
  | .fork name source => do
      let h ← handle source
      modify fun s => s.put name { h with transient := true }
      return .done
  | .finalize name => do
      let h ← handle name
      modify fun s => s.put name { h with transient := false }
      return .done
  | .drop name => do
      let s ← get
      set { s with handles := s.handles.erase name }
      return .existed (s.handle? name).isSome
  | .add name payload place => do
      let h ← handle name
      let t ← editable h
      check (ofStore (place.check t none))
      let kept ← check (ofStore (Revision.acceptPayload payload))
      let id ← mint
      let stamp ← stamp
      let cell ← own name h 0
      change cell fun t => t.insert id ⟨stamp, kept⟩ place.parent place.before
      return .object id
  | .write name updates => do
      let h ← handle name
      write name h updates
  | .apply name sel change => do
      let h ← handle name
      let s ← get
      write name h ((s.view h).updates sel change)
  | .delete name id => do
      let h ← handle name
      let t ← editable h
      if t.contains id then
        let cell ← own name h 0
        change cell fun t => t.removeSubtree id
        return .done
      else throw (.store (.noSuchObject id))
  | .deleteSelected name sel => do
      let h ← handle name
      let _ ← editable h
      let s ← get
      let targets := (s.view h).selected sel
      if targets.isEmpty then return .done
      else
        let cell ← own name h 0
        targets.forM fun id => change cell fun t => t.removeSubtree id
        return .done
  | .relocate name id place => do
      let h ← handle name
      let t ← editable h
      check (ofStore (place.check t (some id)))
      let cell ← own name h 0
      change cell fun t => t.move id place
      return .done
  | .copy name source id => do
      let h ← handle name
      let other ← handle source
      let _ ← editable h
      let s ← get
      if (s.view other).contains id then
        let cell ← own name h (guests name source)
        let copy ← copySubtree other.cell cell id
        return .object copy
      else throw (.store (.noSuchObject id))
  | .copySelected name source sel => do
      let h ← handle name
      let other ← handle source
      let _ ← editable h
      let s ← get
      let roots := (s.view other).selectedRoots sel
      if roots.isEmpty then return .copies .none
      else
        let cell ← own name h (guests name source)
        let copies ← roots.mapM (copySubtree other.cell cell)
        return .copies (.ofList copies)

variable {s : SharedSession} {name : String} {h : Handle}

theorem yields_handle_bind {α ρ : Type} {f : Handle → Attempt α} {g : Handle → Except Refusal ρ}
    {out : ρ → α × SharedSession} (hf : ∀ h, Yields (f h) s (g h) out) :
    Yields (handle name >>= f) s (s.handle name >>= g) out :=
  yields_check_bind (s := s) fun h _ => hf h

theorem yields_editable_bind {α ρ : Type} {f : Table → Attempt α} {g : Table → Except Refusal ρ}
    {out : ρ → α × SharedSession} (hf : ∀ t, Yields (f t) s (g t) out) :
    Yields (editable h >>= f) s (ofStore (s.view h).editable >>= g) out :=
  yields_check_bind (s := s) fun t _ => hf t

theorem run_get_bind {α : Type} {f : SharedSession → Attempt α} :
    (get >>= f).run s = (f s).run s := rfl

theorem yields_get_bind {α ρ : Type} {f : SharedSession → Attempt α} {x : Except Refusal ρ}
    {out : ρ → α × SharedSession} (hf : Yields (f s) s x out) : Yields (get >>= f) s x out :=
  hf

theorem run_mint_bind {α : Type} {f : ObjectId → Attempt α} : (mint >>= f).run s =
    (f s.supply.mint.1).run { s with supply := s.supply.mint.2 } :=
  rfl

theorem run_stamp_bind {α : Type} {f : Nat → Attempt α} : (stamp >>= f).run s =
    (f s.supply.stamp.1).run { s with supply := s.supply.stamp.2 } :=
  rfl

theorem run_own_bind {α : Type} {guests : Nat} {f : Nat → Attempt α} :
    (own name h guests >>= f).run s = (f (s.own name h guests).1).run (s.own name h guests).2 :=
  rfl

theorem own_withSupply (s : SharedSession) (supply : Supply) (name : String) (h : Handle)
    (guests : Nat) : { s with supply }.own name h guests =
      ((s.own name h guests).1, { (s.own name h guests).2 with supply }) := by
  unfold SharedSession.own
  by_cases hshared : 1 < s.holders h.cell + guests
  · rw [if_pos hshared]
    exact if_pos hshared
  · rw [if_neg hshared]
    exact if_neg hshared

@[simp] theorem cells_replace_self (s : SharedSession) (cell : Nat) (t : Table × Supply) :
    (s.replace cell t).cells cell = t.1 := if_pos rfl

theorem run_forM_install (cell : Nat) (updates : List (ObjectId × Payload)) (s : SharedSession) :
    (updates.forM (install cell)).run s =
      .ok () (s.replace cell (updates.foldl Revision.install (s.cells cell, s.supply))) := by
  induction updates generalizing s with
  | nil => exact congrArg (Result.ok ()) (replace_self s cell).symm
  | cons update updates ih =>
      refine (ih (s.replace cell (Revision.install (s.cells cell, s.supply) update))).trans ?_
      rw [cells_replace_self, replace_replace]
      rfl

theorem run_forM_removeSubtree (cell : Nat) (ids : List ObjectId) (s : SharedSession) :
    (ids.forM fun id => change cell fun t => t.removeSubtree id).run s =
      .ok () (s.replace cell (ids.foldl Table.removeSubtree (s.cells cell), s.supply)) := by
  induction ids generalizing s with
  | nil => exact congrArg (Result.ok ()) (replace_self s cell).symm
  | cons id ids ih =>
      refine (ih (s.replace cell ((s.cells cell).removeSubtree id, s.supply))).trans ?_
      rw [cells_replace_self, replace_replace]
      rfl

theorem run_foldlM_copyNext (source cell : Nat) (root : ObjectId) (ids : List ObjectId)
    (s : SharedSession) (copies : List (ObjectId × ObjectId)) :
    (ids.foldlM (copyNext source cell root) copies).run s =
      let (s, copies) := ids.foldl (SharedSession.copyNext source cell root) (s, copies)
      .ok copies s := by
  induction ids generalizing s copies with
  | nil => rfl
  | cons id ids ih =>
      have hnext : (copyNext source cell root copies id).run s =
          let (s, copies) := SharedSession.copyNext source cell root (s, copies) id
          .ok copies s := by
        refine run_get_bind.trans ?_
        dsimp only [SharedSession.copyNext, Revision.Copying.next]
        cases (s.cells source).get? id with
        | none => exact congrArg (Result.ok copies) (replace_self s cell).symm
        | some entry => rfl
      rw [List.foldlM_cons, EStateM.run_bind, hnext]
      exact ih _ _

theorem run_copySubtree (source cell : Nat) (root : ObjectId) (s : SharedSession) :
    (copySubtree source cell root).run s =
      let (copy, s) := s.copySubtree source cell root
      .ok copy s := by
  change (((s.cells source).subtree root).foldlM (copyNext source cell root) [] >>= _ :
    Attempt ObjectId).run s = _
  rw [EStateM.run_bind, run_foldlM_copyNext]
  rfl

theorem run_mapM_copySubtree (source cell : Nat) (roots : List ObjectId) (s : SharedSession) :
    (roots.mapM (copySubtree source cell)).run s =
      let (copies, s) := s.copySubtrees source cell roots
      .ok copies s := by
  induction roots generalizing s with
  | nil => rfl
  | cons root roots ih =>
      rw [List.mapM_cons, EStateM.run_bind, run_copySubtree]
      dsimp only
      rw [EStateM.run_bind, ih]
      rfl

theorem yields_write (updates : List (ObjectId × Payload)) :
    Yields (write name h updates) s (s.write name h updates) id := by
  refine yields_editable_bind fun t => yields_check_bind fun staged _ => ?_
  split
  · rfl
  · refine run_own_bind.trans ?_
    rw [EStateM.run_bind, run_forM_install]
    rfl

theorem yields_perform (s : SharedSession) (command : Command) :
    Yields (perform command) s (s.perform command) id := by
  cases command with
  | start name => rfl
  | drop name => rfl
  | fork name source => exact yields_handle_bind fun h => rfl
  | finalize name => exact yields_handle_bind fun h => rfl
  | add name payload place =>
      refine yields_handle_bind fun h => yields_editable_bind fun t => yields_check_bind fun _ _ =>
        yields_check_bind fun kept _ => ?_
      refine run_mint_bind.trans (run_stamp_bind.trans (run_own_bind.trans ?_))
      dsimp only
      rw [own_withSupply s]
      rfl
  | write name updates => exact yields_handle_bind fun h => yields_write updates
  | apply name sel change =>
      exact yields_handle_bind fun h => yields_get_bind (yields_write _)
  | delete name id =>
      refine yields_handle_bind fun h => yields_editable_bind fun t => ?_
      split
      · rfl
      · rfl
  | deleteSelected name sel =>
      refine yields_handle_bind fun h => yields_editable_bind fun t => yields_get_bind ?_
      dsimp only
      split
      · rfl
      · refine run_own_bind.trans ?_
        rw [EStateM.run_bind, run_forM_removeSubtree]
        rfl
  | relocate name id place =>
      refine yields_handle_bind fun h => yields_editable_bind fun t =>
        yields_check_bind fun _ _ => ?_
      exact run_own_bind.trans rfl
  | copy name source id =>
      refine yields_handle_bind fun h => yields_handle_bind fun other =>
        yields_editable_bind fun t => yields_get_bind ?_
      split
      · refine run_own_bind.trans ?_
        rw [EStateM.run_bind, run_copySubtree]
        rfl
      · rfl
  | copySelected name source sel =>
      refine yields_handle_bind fun h => yields_handle_bind fun other =>
        yields_editable_bind fun t => yields_get_bind ?_
      dsimp only
      split
      · rfl
      · refine run_own_bind.trans ?_
        rw [EStateM.run_bind, run_mapM_copySubtree]
        rfl

end Attempt

/-- The same where tables are shared: no table is copied for a change that is then refused. -/
theorem run_attempt (s : SharedSession) (command : Command) : (Attempt.perform command).run s =
    match s.perform command with
    | .ok (answer, next) => .ok answer next
    | .error reason => .error reason s := by
  have h := Attempt.yields_perform s command
  unfold Yields at h
  rw [h]
  cases s.perform command <;> rfl

end SharedSession

end Schematic
