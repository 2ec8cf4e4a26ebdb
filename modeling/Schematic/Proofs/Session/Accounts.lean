import Schematic.Proofs.Session.Live
import Schematic.Proofs.Session.Sharing

namespace Schematic

/-! ### Lists without repetitions -/

theorem nodup_eraseDups {α : Type} [BEq α] [LawfulBEq α] (list : List α) :
    list.eraseDups.Nodup := by
  match list with
  | [] => exact .nil
  | a :: rest =>
      rw [List.eraseDups_cons, List.nodup_cons]
      refine ⟨?_, nodup_eraseDups _⟩
      rw [List.mem_eraseDups]
      simp
termination_by list.length
decreasing_by exact Nat.lt_succ_of_le (List.length_filter_le _ _)

theorem countP_eq_ncard {α : Type} {list : List α} (h : list.Nodup) (p : α → Bool) :
    list.countP p = {a | a ∈ list ∧ p a = true}.ncard := by
  classical
  have hset : {a | a ∈ list ∧ p a = true} = ((list.filter p).toFinset : Set α) := by
    ext a
    simp
  rw [hset, Set.ncard_coe_finset, List.toFinset_card_of_nodup (h.filter p),
    List.countP_eq_length_filter]

namespace Session

variable {s next : Session} {state : ObjectState}

theorem mem_instances_iff : state ∈ s.instances ↔ state ∈ s.live := by
  rw [instances, List.mem_eraseDups, List.mem_flatMap]
  constructor
  · rintro ⟨⟨name, r⟩, hr, hstate⟩
    obtain ⟨id, entry, hentry, rfl⟩ := Table.mem_states_iff.mp hstate
    exact ⟨name, id, r, Std.ExtTreeMap.mem_toList_iff_getElem?_eq_some.mp hr,
      Option.map_eq_some_iff.mpr ⟨entry, hentry, rfl⟩⟩
  · rintro ⟨name, id, r, hr, hstate⟩
    obtain ⟨entry, hentry, rfl⟩ := Option.map_eq_some_iff.mp hstate
    exact ⟨(name, r), Std.ExtTreeMap.mem_toList_iff_getElem?_eq_some.mpr hr,
      Table.mem_states_iff.mpr ⟨id, entry, hentry, rfl⟩⟩

theorem nodup_instances : s.instances.Nodup := nodup_eraseDups _

theorem refCount_eq (s : Session) (handles : Nat) (resource : Resource) :
    s.refCount handles resource =
      handles + {state | state ∈ s.live ∧ state.payload.resource = resource}.ncard := by
  rw [refCount, countP_eq_ncard nodup_instances]
  simp only [mem_instances_iff, beq_iff_eq]

/-- With handles in a pool, a resource is counted over these and the ones that the instances
hold. -/
theorem refCount_pool (s : Session) (pool : Resource.Pool) {resource : Resource}
    (hresource : resource.isEmpty = false) : s.refCount (pool.refCount resource) resource =
      resource.refCount (pool.held ++ s.instances.map (·.payload.resource)) := by
  have hcount : ∀ held : List Resource, resource.refCount held = held.count resource :=
    fun _ => if_neg (by simp [hresource])
  rw [refCount, Resource.Pool.refCount, hcount, hcount, List.count_append]
  exact congrArg _ (List.countP_map (p := (· == resource))).symm

end Session

namespace SharedSession

variable {s : SharedSession} {state : ObjectState}

theorem holders_pos_iff {cell : Nat} :
    0 < s.holders cell ↔ ∃ name h, s.handle? name = some h ∧ h.cell = cell := by
  rw [holders, List.countP_pos_iff]
  constructor
  · rintro ⟨⟨name, h⟩, hmem, hcell⟩
    exact ⟨name, h, Std.ExtTreeMap.mem_toList_iff_getElem?_eq_some.mp hmem, beq_iff_eq.mp hcell⟩
  · rintro ⟨name, h, hh, hcell⟩
    exact ⟨(name, h), Std.ExtTreeMap.mem_toList_iff_getElem?_eq_some.mpr hh, beq_iff_eq.mpr hcell⟩

theorem mem_live_unshared_iff : state ∈ s.unshared.live ↔
    ∃ name h, s.handle? name = some h ∧ state ∈ (s.cells h.cell).states := by
  simp only [Session.live, Session.Holds, Set.mem_ofPred_eq, revision?_unshared, revision?,
    Option.map_eq_some_iff, Table.mem_states_iff]
  constructor
  · rintro ⟨name, id, _, ⟨h, hh, rfl⟩, hstate⟩
    obtain ⟨entry, hentry, rfl⟩ := Option.map_eq_some_iff.mp hstate
    exact ⟨name, h, hh, id, entry, hentry, rfl⟩
  · rintro ⟨name, h, hh, id, entry, hentry, rfl⟩
    exact ⟨name, id, _, ⟨h, hh, rfl⟩, Option.map_eq_some_iff.mpr ⟨entry, hentry, rfl⟩⟩

theorem pointers_pos_iff (hs : s.Allocated) :
    0 < s.pointers state ↔ state ∈ s.unshared.live := by
  rw [pointers, mem_live_unshared_iff, List.count_pos_iff]
  simp only [List.mem_flatMap, List.mem_filter, List.mem_range, decide_eq_true_eq, holders_pos_iff]
  constructor
  · rintro ⟨cell, ⟨-, name, h, hh, rfl⟩, hstate⟩
    exact ⟨name, h, hh, hstate⟩
  · rintro ⟨name, h, hh, hstate⟩
    exact ⟨h.cell, ⟨hs name h hh, name, h, hh, rfl⟩, hstate⟩

theorem refCount_eq (hs : s.Allocated) (handles : Nat) {resource : Resource}
    (hresource : resource.isEmpty = false) :
    s.refCount handles resource = s.unshared.refCount handles resource := by
  have hmem : ∀ state, state ∈ s.instances.filter (0 < s.pointers ·) ↔
      state ∈ s.unshared.instances := by
    intro state
    rw [List.mem_filter, decide_eq_true_eq, pointers_pos_iff hs, Session.mem_instances_iff,
      and_iff_right_iff_imp, mem_live_unshared_iff]
    rintro ⟨name, h, hh, hstate⟩
    rw [instances, List.mem_eraseDups, List.mem_flatMap]
    exact ⟨h.cell, List.mem_range.mpr (hs name h hh), hstate⟩
  have hnodup : (s.instances.filter (0 < s.pointers ·)).Nodup := (nodup_eraseDups _).filter _
  have hperm := (List.perm_ext_iff_of_nodup hnodup Session.nodup_instances).mpr hmem
  rw [refCount, if_neg (by simp [hresource]), Session.refCount, hperm.countP_eq]

theorem refCount_pool (hs : s.Allocated) (pool : Resource.Pool) {resource : Resource}
    (hresource : resource.isEmpty = false) : s.refCount (pool.refCount resource) resource =
      resource.refCount (pool.held ++ s.unshared.instances.map (·.payload.resource)) := by
  rw [refCount_eq hs _ hresource, Session.refCount_pool s.unshared pool hresource]

end SharedSession

/-! ### What the commands do -/

def Command.rewrites : Command → Bool
  | .write _ _ | .apply _ _ _ => true
  | _ => false

namespace Session

/-- Commands that neither bring in an instance nor take one away: forks under a new name, moves,
copies, and updates with what is held already. -/
def Shares (s : Session) : Command → Prop
  | .fork rev _ => s.revision? rev = none
  | .finalize _ | .relocate _ _ _ | .copy _ _ _ | .copySelected _ _ _ => True
  | .write rev updates => ∀ r, s.revision? rev = some r → ∀ id, ¬ r.Replaces updates id
  | .apply rev sel change => ∀ r, s.revision? rev = some r →
      ∀ id, ¬ r.Replaces (r.updates sel change) id
  | _ => False

/-- What every command makes of the instances that a session holds. -/
structure Settled (s : Session) : Prop where
  refused : ∀ command reason, (s.step command).1 = .error reason →
    (s.step command).2.live = s.live
  shares : ∀ command, s.Shares command → (s.step command).2.live = s.live
  add : ∀ rev payload place id next, s.step (.add rev payload place) = (.ok (.object id), next) →
    ∃ state ∉ s.live, state.payload = payload.normalize ∧ next.Holds rev id state ∧
      next.live = insert state s.live
  rewrite : ∀ command answer next, command.rewrites = true → s.step command = (.ok answer, next) →
    ∃ r changed, s.revision? command.subject = some r ∧
      next.revision? command.subject = some changed ∧ s.Rewritten command.subject r changed next
  delete : ∀ rev id answer next, s.step (.delete rev id) = (.ok answer, next) →
    ∃ r, s.revision? rev = some r ∧
      next.live = s.liveWithout fun name x => name = rev ∧ x ∈ r.table.subtree id
  deleteSelected : ∀ rev sel answer next, s.step (.deleteSelected rev sel) = (.ok answer, next) →
    ∃ r, s.revision? rev = some r ∧ next.live = s.liveWithout fun name x =>
      name = rev ∧ ∃ id ∈ r.selected sel, x ∈ r.table.subtree id
  drop : ∀ rev, (s.step (.drop rev)).2.live = s.liveWithout fun name _ => name = rev
  /-- A new revision under a name that is in use drops the one that was there. -/
  start : ∀ rev, (s.step (.start rev)).2.live = s.liveWithout fun name _ => name = rev
  fork : ∀ rev source answer next, s.step (.fork rev source) = (.ok answer, next) →
    next.live = s.liveWithout fun name _ => name = rev ∧ name ≠ source

variable {s next : Session} {command : Command} {answer : Answer} {name rev : String}
  {r changed : Revision}

theorem perform_of_step (h : s.step command = (.ok answer, next)) :
    s.perform command = .ok (answer, next) := by
  rw [step] at h
  cases hperform : s.perform command with
  | error reason => rw [hperform] at h; cases h
  | ok result => rw [hperform] at h; cases h; rfl

theorem Rewritten.live_eq (h : s.Rewritten name r changed next)
    (hsame : ∀ id, ¬ r.Differs changed id) : next.live = s.live := by
  refine Set.Subset.antisymm (fun state hstate => ?_) fun state hstate => ?_
  · by_contra hnew
    obtain ⟨id, hid, -⟩ := h.bijOn.surjOn ⟨state, ⟨hstate, hnew⟩, rfl⟩
    exact hsame id hid
  · by_contra hgone
    obtain ⟨⟨id, hid, -⟩, -⟩ := (h.mem_removed_iff state).mp ⟨hstate, hgone⟩
    exact hsame id hid

theorem Reachable.exists_rewritten (hs : s.Reachable) (hrewrites : command.rewrites = true)
    (h : s.perform command = .ok (answer, next)) :
    ∃ r changed left, s.revision? command.subject = some r ∧
      next.revision? command.subject = some changed ∧
        r.write s.supply (command.updates r) = .ok (changed, left) ∧
          s.Rewritten command.subject r changed next := by
  cases perform_eq_ok_iff.mp h with
  | @write rev _ _ changed left hr hwrite | @apply rev _ _ _ changed left hr hwrite =>
      have hself := revision?_update_self s rev (changed, left)
      exact ⟨_, changed, left, hr, hself, hwrite, hs.rewritten rfl hr rfl hwrite h hself⟩
  | _ => cases hrewrites

theorem Reachable.live_of_shares (hs : s.Reachable) (hshares : s.Shares command) :
    (s.step command).2.live = s.live := by
  cases hperform : s.perform command with
  | error reason => rw [Session.step, hperform]
  | ok result =>
      obtain ⟨answer, next⟩ := result
      rw [step_eq_of_perform hperform]
      have hidle : command.works = true → command.brings = false →
          (∀ r, command.deleted r = []) → (∀ r, command.updates r = []) → next.live = s.live := by
        intro hworks hbrings hdeleted hupdates
        rw [hs.live_eq_of_not_brings hperform hbrings,
          liveWithout_eq_live fun _ _ => not_loses_of_idle hworks hdeleted hupdates]
      have hsame : command.rewrites = true → (∀ r, s.revision? command.subject = some r →
          ∀ id, ¬ r.Replaces (command.updates r) id) → next.live = s.live := by
        intro hrewrites hkept
        obtain ⟨r, changed, left, hr, -, hwrite, h⟩ := hs.exists_rewritten hrewrites hperform
        exact h.live_eq fun id hid =>
          hkept r hr id ((Revision.replaces_iff_differs (hs.sound hr) hwrite).mpr hid)
      cases command with
      | fork rev source =>
          rw [hs.live_eq_of_not_brings hperform rfl]
          -- A fork in place of another revision would let go of what only that one holds.
          have hnew : s.revision? rev = none := hshares
          refine (liveWithout_congr fun name id r hr _ => iff_of_false ?_ not_false).trans
            (liveWithout_eq_live fun _ _ => not_false)
          rintro ⟨hname, -⟩
          have hname : rev = name := hname
          rw [← hname, hnew] at hr
          cases hr
      | finalize _ | relocate _ _ _ | copy _ _ _ | copySelected _ _ _ =>
          exact hidle rfl rfl (fun _ => rfl) fun _ => rfl
      | write rev updates => exact hsame rfl hshares
      | apply rev sel change => exact hsame rfl hshares
      | _ => cases hshares

theorem loses_iff_of_deletes (hworks : command.works = true)
    (hr : s.revision? command.subject = some r) (hupdates : ∀ r, command.updates r = [])
    (id : ObjectId) : s.Loses command name id ↔
      name = command.subject ∧ id ∈ (command.deleted r).flatMap r.table.subtree := by
  have hself := @loses_iff_of_works s command r id hworks hr
  rw [hupdates, or_iff_left Revision.not_replaces_nil] at hself
  constructor
  · intro hloses
    have hname := hloses.1
    subst hname
    exact ⟨rfl, hself.mp hloses⟩
  · rintro ⟨rfl, hid⟩
    exact hself.mpr hid

theorem Reachable.live_of_deletes (hs : s.Reachable) (hworks : command.works = true)
    (hbrings : command.brings = false) (hupdates : ∀ r, command.updates r = [])
    (h : s.perform command = .ok (answer, next)) :
    ∃ r, s.revision? command.subject = some r ∧ next.live = s.liveWithout fun name x =>
      name = command.subject ∧ x ∈ (command.deleted r).flatMap r.table.subtree := by
  obtain ⟨r, hr⟩ :=
    exists_of_perform h (show command.subject ∈ command.names by simp [Command.names, hworks])
  refine ⟨r, hr, ?_⟩
  rw [hs.live_eq_of_not_brings h hbrings]
  exact liveWithout_congr fun name id _ _ _ => loses_iff_of_deletes hworks hr hupdates id

theorem Reachable.live_of_not_works (hs : s.Reachable) (hworks : command.works = false)
    (h : s.perform command = .ok (answer, next)) :
    next.live = s.liveWithout fun name _ => name = command.subject ∧ name ∉ command.reads := by
  have hbrings : command.brings = false := by
    cases command with
    | add _ _ _ | write _ _ | apply _ _ _ => cases hworks
    | _ => rfl
  rw [hs.live_eq_of_not_brings h hbrings]
  refine liveWithout_congr fun name id _ _ _ => ?_
  simp [Loses, hworks, eq_comm]

theorem Reachable.settled (hs : s.Reachable) : s.Settled where
  refused command reason h := by rw [step_snd_of_error h]
  shares command h := hs.live_of_shares h
  add rev payload place id next h := hs.live_of_add (perform_of_step h)
  rewrite command answer next hrewrites h := by
    obtain ⟨r, changed, left, hr, hchanged, -, h⟩ :=
      hs.exists_rewritten hrewrites (perform_of_step h)
    exact ⟨r, changed, hr, hchanged, h⟩
  delete rev id answer next h := by
    simpa [Command.subject, Command.deleted] using
      hs.live_of_deletes rfl rfl (fun _ => rfl) (perform_of_step h)
  deleteSelected rev sel answer next h := by
    simpa [Command.subject, Command.deleted] using
      hs.live_of_deletes rfl rfl (fun _ => rfl) (perform_of_step h)
  drop rev := by
    have h := Performs.drop (s := s) rev
    rw [h.step_eq]
    simpa [Command.subject, Command.reads] using
      hs.live_of_not_works rfl (perform_eq_ok_iff.mpr h)
  start rev := by
    have h := Performs.start (s := s) rev
    rw [h.step_eq]
    simpa [Command.subject, Command.reads] using
      hs.live_of_not_works rfl (perform_eq_ok_iff.mpr h)
  fork rev source answer next h := by
    simpa [Command.subject, Command.reads] using hs.live_of_not_works rfl (perform_of_step h)

/-- Whatever commands have been given, in memory each resource is counted by the handles outside and
the instances that some revision holds, which are told apart by their stamps; and every command then
does to these what it should. -/
theorem accounts (supply : Supply) (commands : List Command) :
    (∀ state, state ∈ (run { supply } commands).2.instances ↔
      state ∈ (run { supply } commands).2.live) ∧
    (run { supply } commands).2.instances.Nodup ∧
    (∀ state ∈ (run { supply } commands).2.live, ∀ state' ∈ (run { supply } commands).2.live,
      state.stamp = state'.stamp → state = state') ∧
    (∀ handles resource, resource.isEmpty = false →
      (SharedSession.run { supply } commands).2.refCount handles resource = handles +
        {state | state ∈ (run { supply } commands).2.live ∧
          state.payload.resource = resource}.ncard) ∧
    (run { supply } commands).2.Settled := by
  have h : (run { supply } commands).2.Reachable := (Reachable.start supply).run commands
  refine ⟨fun _ => mem_instances_iff, nodup_instances, fun _ hstate _ hstate' =>
    h.eq_of_stamp_eq hstate hstate', fun handles resource hresource => ?_, h.settled⟩
  have hallocated := ((SharedSession.sound_start supply).run commands).allocated
  rw [SharedSession.refCount_eq hallocated handles hresource, refCount_eq, SharedSession.run_start]

/-- A component whose symbol is held by one instance, in a drawing and in a fork of it that has a
copy of the component as well. -/
def symbols : List Command :=
  [.start "a", .add "a" (.component { symbol := ⟨some 7⟩ }) .top, .fork "b" "a", .copy "b" "a" ⟨0⟩]

theorem accounts_symbols :
    (SharedSession.run {} symbols).2.refCount 1 ⟨some 7⟩ = 2 ∧
      {state | state ∈ (run {} symbols).2.live ∧ state.payload.resource = ⟨some 7⟩}.ncard = 1 ∧
        ((run {} symbols).2.step (.delete "b" ⟨0⟩)).2.live =
            ((run {} symbols).2.liveWithout fun name id => name = "b" ∧ id = ⟨0⟩) ∧
          (∃ r changed, (run {} symbols).2.Rewritten "b" r changed
            ((run {} symbols).2.step (.write "b" [(⟨1⟩, .text {})])).2) ∧
            ((run {} symbols).2.step (.relocate "b" ⟨0⟩ .top)).2.live =
              (run {} symbols).2.live := by
  obtain ⟨-, -, -, hcount, hsettled⟩ := accounts {} symbols
  have hmemory : (SharedSession.run {} symbols).2.refCount 1 ⟨some 7⟩ = 2 := rfl
  have hone := hcount 1 ⟨some 7⟩ rfl
  obtain ⟨r, hr, hdelete⟩ := hsettled.delete "b" ⟨0⟩ .done
    ((run {} symbols).2.step (.delete "b" ⟨0⟩)).2 rfl
  obtain ⟨r', changed, -, -, hwrite⟩ := hsettled.rewrite (.write "b" [(⟨1⟩, .text {})]) .done
    ((run {} symbols).2.step (.write "b" [(⟨1⟩, .text {})])).2 rfl rfl
  refine ⟨hmemory, by omega, ?_, ⟨r', changed, hwrite⟩, hsettled.shares _ trivial⟩
  rw [hdelete]
  have hsubtree : r.table.subtree ⟨0⟩ = [⟨0⟩] := by
    cases hr
    rfl
  simp [hsubtree]

end Session

end Schematic
