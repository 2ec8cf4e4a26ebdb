import Schematic.Proofs.Session.Commands
import Schematic.Proofs.Store.Legality
import Schematic.Proofs.Store.Refusal

namespace Schematic

/-- What is wrong with a command on a revision that may be changed: the first of these that
applies. -/
inductive Session.Fault (s : Session) (r : Revision) : Command → StoreError → Prop
  | placement {rev : String} {payload : Payload} {place : Placement} {e : StoreError}
      (hplace : place.check r.table none = .error e) : Fault s r (.add rev payload place) e
  | payload {rev : String} {payload : Payload} {place : Placement} {reason : ValidationError}
      (hplace : place.check r.table none = .ok ()) (hpayload : payload.validate = .error reason) :
      Fault s r (.add rev payload place) (.invalidData reason)
  | write {rev : String} {updates : List (ObjectId × Payload)} {e : StoreError}
      (hfirst : r.FirstFault updates e) : Fault s r (.write rev updates) e
  | apply {rev : String} {sel : Selection} {change : Change} {e : StoreError}
      (hfirst : r.FirstFault (r.updates sel change) e) : Fault s r (.apply rev sel change) e
  | delete {rev : String} {id : ObjectId} (hid : r.contains id = false) :
      Fault s r (.delete rev id) (.noSuchObject id)
  | relocate {rev : String} {id : ObjectId} {place : Placement} {e : StoreError}
      (hplace : place.check r.table (some id) = .error e) : Fault s r (.relocate rev id place) e
  | copy {rev name : String} {source : Revision} {id : ObjectId}
      (hsource : s.revision? name = some source) (hid : source.contains id = false) :
      Fault s r (.copy rev name id) (.noSuchObject id)

/-- The error with which a command is refused whose revisions are all there. A final revision
refuses every change, whatever else is wrong with it. -/
def Session.Refuses (s : Session) (command : Command) (e : StoreError) : Prop :=
  command.mutates = true ∧ (∀ name ∈ command.reads, ∃ source, s.revision? name = some source) ∧
    ∃ r, s.revision? command.subject = some r ∧
      (r.transient = false ∧ e = .notTransient ∨ r.transient = true ∧ s.Fault r command e)

namespace Session

def succeeding (s : Session) : List Command → List Command
  | [] => []
  | command :: commands =>
      let rest := (s.step command).2.succeeding commands
      if (s.step command).1.isOk then command :: rest else rest

variable {s : Session} {command : Command} {answer : Answer} {rev name : String} {r : Revision}
  {id : ObjectId} {payload : Payload} {place : Placement} {sel : Selection} {e : StoreError}

theorem revision_ne_store : s.revision name ≠ .error (.store e) := by
  unfold revision
  cases s.revision? name <;> simp

theorem fault_add_iff : s.Fault r (.add rev payload place) e ↔
    place.check r.table none = .error e ∨ place.check r.table none = .ok () ∧
      ∃ reason, payload.validate = .error reason ∧ e = .invalidData reason := by
  constructor
  · intro h
    cases h with
    | placement hplace => exact .inl hplace
    | payload hplace hpayload => exact .inr ⟨hplace, _, hpayload, rfl⟩
  · rintro (hplace | ⟨hplace, reason, hpayload, rfl⟩)
    · exact .placement hplace
    · exact .payload hplace hpayload

theorem fault_write_iff {updates : List (ObjectId × Payload)} :
    s.Fault r (.write rev updates) e ↔ r.FirstFault updates e := by
  constructor
  · intro h
    cases h with
    | write hfirst => exact hfirst
  · exact .write

theorem fault_apply_iff {change : Change} :
    s.Fault r (.apply rev sel change) e ↔ r.FirstFault (r.updates sel change) e := by
  constructor
  · intro h
    cases h with
    | apply hfirst => exact hfirst
  · exact .apply

theorem fault_delete_iff :
    s.Fault r (.delete rev id) e ↔ r.contains id = false ∧ e = .noSuchObject id := by
  constructor
  · intro h
    cases h with
    | delete hid => exact ⟨hid, rfl⟩
  · rintro ⟨hid, rfl⟩
    exact .delete hid

theorem fault_relocate_iff :
    s.Fault r (.relocate rev id place) e ↔ place.check r.table (some id) = .error e := by
  constructor
  · intro h
    cases h with
    | relocate hplace => exact hplace
  · exact .relocate

theorem fault_copy_iff : s.Fault r (.copy rev name id) e ↔
    ∃ source, s.revision? name = some source ∧ source.contains id = false ∧
      e = .noSuchObject id := by
  constructor
  · intro h
    cases h with
    | copy hsource hid => exact ⟨_, hsource, hid, rfl⟩
  · rintro ⟨source, hsource, hid, rfl⟩
    exact .copy hsource hid

theorem not_fault_deleteSelected : ¬ s.Fault r (.deleteSelected rev sel) e := by
  intro h
  cases h

theorem not_fault_copySelected : ¬ s.Fault r (.copySelected rev name sel) e := by
  intro h
  cases h

theorem not_refuses (hmutates : command.mutates = false) : ¬ s.Refuses command e := by
  rintro ⟨h, -⟩
  rw [hmutates] at h
  cases h

theorem refuses_iff (hmutates : command.mutates = true) (hreads : command.reads = []) :
    s.Refuses command e ↔ ∃ r, s.revision? command.subject = some r ∧
      (r.transient = false ∧ e = .notTransient ∨ r.transient = true ∧ s.Fault r command e) := by
  simp [Refuses, hmutates, hreads]

theorem refuses_iff_of_reads (hmutates : command.mutates = true) (hreads : command.reads = [name]) :
    s.Refuses command e ↔ ∃ r, s.revision? command.subject = some r ∧
      ∃ source, s.revision? name = some source ∧
        (r.transient = false ∧ e = .notTransient ∨ r.transient = true ∧ s.Fault r command e) := by
  simp only [Refuses, hmutates, hreads, List.forall_mem_singleton, true_and]
  constructor
  · rintro ⟨⟨source, hsource⟩, r, hr, he⟩
    exact ⟨r, hr, source, hsource, he⟩
  · rintro ⟨r, hr, source, hsource, he⟩
    exact ⟨⟨source, hsource⟩, r, hr, he⟩

theorem Reachable.perform_eq_store_iff (h : s.Reachable) :
    s.perform command = .error (.store e) ↔ s.Refuses command e := by
  cases command with
    simp only [perform.eq_def, ofStore, bind_eq_error_iff, revision_ne_store, revision_eq_ok_iff,
      mapError_eq_error_iff, Refusal.store.injEq, exists_eq_right, pure_ne_error, and_false,
      exists_false, or_false, false_or]
  | start rev | drop rev => exact iff_of_false id (not_refuses rfl)
  | fork rev name => exact iff_of_false id (not_refuses rfl)
  | finalize rev => exact iff_of_false id (not_refuses rfl)
  | add rev payload place =>
      rw [refuses_iff rfl rfl]
      refine exists_congr fun r => and_congr_right fun _ => ?_
      rw [Revision.add_eq_error_iff, fault_add_iff]
  | write rev updates =>
      rw [refuses_iff rfl rfl]
      refine exists_congr fun r => and_congr_right fun hr => ?_
      rw [Revision.write_eq_error_iff (h.sound hr).wellFormed, fault_write_iff]
  | apply rev sel change =>
      rw [refuses_iff rfl rfl]
      refine exists_congr fun r => and_congr_right fun hr => ?_
      rw [Revision.apply, Revision.write_eq_error_iff (h.sound hr).wellFormed, fault_apply_iff]
  | delete rev id =>
      rw [refuses_iff rfl rfl]
      refine exists_congr fun r => and_congr_right fun _ => ?_
      rw [Revision.delete_eq_error_iff, fault_delete_iff]
  | deleteSelected rev sel =>
      rw [refuses_iff rfl rfl]
      refine exists_congr fun r => and_congr_right fun _ => ?_
      rw [Revision.deleteSelected_eq_error_iff,
        or_iff_left (mt And.right not_fault_deleteSelected)]
  | relocate rev id place =>
      rw [refuses_iff rfl rfl]
      refine exists_congr fun r => and_congr_right fun _ => ?_
      rw [Revision.relocate_eq_error_iff, fault_relocate_iff]
  | copy rev name id =>
      rw [refuses_iff_of_reads rfl rfl]
      refine exists_congr fun r => and_congr_right fun _ => exists_congr fun source =>
        and_congr_right fun hsource => ?_
      rw [Revision.copy_eq_error_iff, fault_copy_iff, hsource]
      simp only [Option.some.injEq, exists_eq_left']
  | copySelected rev name sel =>
      rw [refuses_iff_of_reads rfl rfl]
      refine exists_congr fun r => and_congr_right fun _ => exists_congr fun source =>
        and_congr_right fun _ => ?_
      rw [Revision.copySelected_eq_error_iff,
        or_iff_left (mt And.right not_fault_copySelected)]

theorem revision_eq_unknown_iff {other : String} :
    s.revision name = .error (.unknownRevision other) ↔ name = other ∧ s.revision? name = none := by
  unfold revision
  cases s.revision? name <;> simp

theorem exists_of_perform (h : s.perform command = .ok (answer, next))
    (hname : name ∈ command.names) : ∃ r, s.revision? name = some r := by
  cases perform_eq_ok_iff.mp h with
  | start rev | drop rev => cases hname
  | copy hr hother | copySelected hr hother =>
      rcases List.mem_cons.mp hname with rfl | hname
      · exact ⟨_, hr⟩
      · cases List.mem_singleton.mp hname
        exact ⟨_, hother⟩
  | fork rev hr | _ hr =>
      cases List.mem_singleton.mp hname
      exact ⟨_, hr⟩

theorem eq_none_of_perform (h : s.perform command = .error (.unknownRevision name)) :
    name ∈ command.names ∧ s.revision? name = none := by
  cases command with
    simp only [perform.eq_def, ofStore, bind_eq_error_iff, revision_eq_unknown_iff,
      mapError_eq_error_iff, pure_ne_error, reduceCtorEq, and_false, exists_false, or_false] at h
  | fork rev source => exact h.1 ▸ ⟨List.mem_singleton_self _, h.2⟩
  | finalize rev | add rev payload place | write rev updates | apply rev sel change =>
      exact h.1 ▸ ⟨List.mem_singleton_self _, h.2⟩
  | delete rev id | deleteSelected rev sel | relocate rev id place =>
      exact h.1 ▸ ⟨List.mem_singleton_self _, h.2⟩
  | copy rev source id | copySelected rev source sel =>
      rcases h with ⟨rfl, h⟩ | ⟨-, -, rfl, h⟩
      · exact ⟨List.mem_cons_self, h⟩
      · exact ⟨List.mem_cons_of_mem _ List.mem_cons_self, h⟩

theorem step_fst_eq_error_iff {reason : Refusal} :
    (s.step command).1 = .error reason ↔ s.perform command = .error reason := by
  rw [step]
  cases s.perform command <;> simp

theorem step_snd_of_error {reason : Refusal} (h : (s.step command).1 = .error reason) :
    (s.step command).2 = s := by
  rw [step, step_fst_eq_error_iff.mp h]

/-- A run without its refused commands gives the same answers to the others, and ends the same. -/
theorem run_succeeding (s : Session) (commands : List Command) :
    s.run (s.succeeding commands) =
      ((s.run commands).1.filter Except.isOk, (s.run commands).2) := by
  induction commands generalizing s with
  | nil => rfl
  | cons command commands ih =>
      rw [run_cons s, succeeding]
      dsimp only
      rw [List.filter_cons]
      split
      · rw [run_cons, ih]
      · rename_i hfails
        cases hstep : (s.step command).1 with
        | ok answer => simp [hstep, Except.isOk, Except.toBool] at hfails
        | error reason => rw [step_snd_of_error hstep, ih]

/-! ### Final revisions -/

theorem Reachable.step_eq_notTransient (h : s.Reachable)
    (hr : s.revision? command.subject = some r) (hfinal : r.transient = false)
    (hmutates : command.mutates = true)
    (hreads : ∀ name ∈ command.reads, ∃ source, s.revision? name = some source) :
    s.step command = (.error (.store .notTransient), s) := by
  rw [Session.step, h.perform_eq_store_iff.mpr ⟨hmutates, hreads, r, hr, .inl ⟨hfinal, rfl⟩⟩]

theorem revision?_step_finalize (hr : s.revision? name = some r) :
    (s.step (.finalize name)).2.revision? name = some r.finalize := by
  rw [(Performs.finalize hr).step_eq]
  exact revision?_update_self s name (r.finalize, s.supply)

/-- A final revision stays as it is as long as no other one is put in its place. -/
theorem Reachable.revision?_step_of_final (h : s.Reachable) (hr : s.revision? name = some r)
    (hfinal : r.transient = false) (hworks : command.subject = name → command.works = true) :
    (s.step command).2.revision? name = some r := by
  by_cases hname : command.subject = name
  · subst hname
    cases hmutates : command.mutates with
    | true =>
        cases hstep : (s.step command).1 with
        | error reason => rw [step_snd_of_error hstep, hr]
        | ok answer =>
            have hreads : ∀ name ∈ command.reads, ∃ source, s.revision? name = some source := by
              intro name hname
              cases hperform : s.perform command with
              | ok result =>
                  refine exists_of_perform hperform ?_
                  rw [Command.names, if_pos (hworks rfl)]
                  exact List.mem_cons_of_mem _ hname
              | error reason =>
                  rw [step_fst_eq_error_iff.mpr hperform] at hstep
                  cases hstep
            rw [h.step_eq_notTransient hr hfinal hmutates hreads] at hstep
            cases hstep
    | false =>
        cases command with
        | finalize rev =>
            have hlast := revision?_step_finalize hr
            rw [Revision.finalize, ← hfinal] at hlast
            exact hlast
        | start rev | fork rev source | drop rev => cases hworks rfl
        | _ => cases hmutates
  · rw [revision?_step_of_ne s hname, hr]

theorem Reachable.revision?_run_of_final (h : s.Reachable) (hr : s.revision? name = some r)
    (hfinal : r.transient = false) {commands : List Command}
    (hworks : ∀ command ∈ commands, command.subject = name → command.works = true) :
    (s.run commands).2.revision? name = some r := by
  induction commands generalizing s with
  | nil => exact hr
  | cons command commands ih =>
      rw [run_cons]
      refine ih (h.step command) ?_ fun later hlater => hworks later (List.mem_cons_of_mem _ hlater)
      exact h.revision?_step_of_final hr hfinal (hworks command List.mem_cons_self)

/-- Which commands are refused and why, and that what is refused may be left out. -/
theorem Reachable.refusals (h : s.Reachable) :
    (∀ command e, (s.step command).1 = .error (.store e) ↔ s.Refuses command e) ∧
    (∀ command, (∃ answer, (s.step command).1 = .ok answer) ↔
      (∀ name ∈ command.names, ∃ r, s.revision? name = some r) ∧ ∀ e, ¬ s.Refuses command e) ∧
    (∀ command reason, (s.step command).1 = .error reason → (s.step command).2 = s) ∧
    ∀ commands, s.run (s.succeeding commands) =
      ((s.run commands).1.filter Except.isOk, (s.run commands).2) := by
  have hstore : ∀ command e, (s.step command).1 = .error (.store e) ↔ s.Refuses command e :=
    fun command e => step_fst_eq_error_iff.trans h.perform_eq_store_iff
  refine ⟨hstore, fun command => ⟨?_, ?_⟩, fun command reason => step_snd_of_error,
    run_succeeding s⟩
  · rintro ⟨answer, hanswer⟩
    refine ⟨fun name hname => ?_, fun e hrefuses => ?_⟩
    · cases hperform : s.perform command with
      | ok result => exact exists_of_perform hperform hname
      | error reason =>
          rw [step_fst_eq_error_iff.mpr hperform] at hanswer
          cases hanswer
    · rw [(hstore command e).mpr hrefuses] at hanswer
      cases hanswer
  · rintro ⟨hnames, haccepted⟩
    cases hanswer : (s.step command).1 with
    | ok answer => exact ⟨answer, rfl⟩
    | error reason =>
        cases reason with
        | store e => exact absurd ((hstore command e).mp hanswer) (haccepted e)
        | unknownRevision name =>
            obtain ⟨hname, hnone⟩ := eq_none_of_perform (step_fst_eq_error_iff.mp hanswer)
            obtain ⟨r, hr⟩ := hnames name hname
            rw [hnone] at hr
            cases hr

def faulty : List Command :=
  [.write "a" [(⟨2⟩, .text {}), (⟨9⟩, .text {}), (⟨1⟩, .text {})],
    .add "a" (.text { color := 99 }) ⟨some ⟨2⟩, some ⟨9⟩⟩, .finalize "a", .delete "a" ⟨9⟩,
    .add "b" (.text { color := 99 }) .top, .copySelected "b" "a" (.ofList [⟨9⟩, ⟨1⟩])]

theorem refusals_nested :
    nested.Refuses (.write "a" [(⟨2⟩, .text {}), (⟨9⟩, .text {}), (⟨1⟩, .text {})])
        (.noSuchObject ⟨9⟩) ∧
      nested.Refuses (.write "a" [(⟨1⟩, .text { color := 99 }), (⟨9⟩, .text {})])
        (.invalidParent ⟨1⟩) ∧
      (nested.succeeding faulty).length = 2 ∧
        nested.run (nested.succeeding faulty) =
          ((nested.run faulty).1.filter Except.isOk, (nested.run faulty).2) := by
  obtain ⟨hstore, -, -, hrun⟩ := reachable_nested.refusals
  exact ⟨(hstore _ _).mp rfl, (hstore _ _).mp rfl, rfl, hrun faulty⟩

/-! ### Placements -/

/-- Which placements the tables of a session accept: said by what lies below the object, said by the
table that comes of performing the placement, and said by the fault that is reported. The successor
is looked for in the list as it is, which matters only for an object that is to stand before
itself. -/
theorem Reachable.check_outcome (h : s.Reachable) (hr : s.revision? name = some r)
    (object : Option ObjectId) (place : Placement) :
    (place.check r.table object = .ok () ↔ place.Admissible r.table object) ∧
    (∀ id u, place.Performed r.table object id u →
      (place.check r.table object = .ok () ↔
        u.WellFormed ∧ ∀ next, place.before = some next → next ∈ r.table.siblings place.parent) ∧
      (place.before ≠ some id → (place.check r.table object = .ok () ↔
        u.WellFormed ∧ ∀ next, place.before = some next → next ∈ u.siblings place.parent))) ∧
    ∀ e, place.check r.table object = .error e ↔ place.FirstFault r.table object e := by
  have wf := (h.sound hr).wellFormed
  refine ⟨Placement.check_eq_ok_iff_admissible wf, fun id u hu => ⟨hu.check_eq_ok_iff wf, ?_⟩,
    fun e => Placement.check_eq_error_iff_firstFault wf⟩
  intro hself
  rw [hu.check_eq_ok_iff wf]
  refine and_congr_right fun _ => forall_congr' fun next => forall_congr' fun hnext => ?_
  have hne : next ≠ id := by
    rintro rfl
    exact hself hnext
  exact (hu.mem_siblings_iff_of_ne wf hne _).symm

theorem check_outcome_nested :
    ∃ r, nested.revision? "a" = some r ∧
      Placement.FirstFault r.table (some ⟨1⟩) ⟨some ⟨1⟩, some ⟨1⟩⟩ (.invalidParent ⟨1⟩) ∧
        Placement.FirstFault r.table none ⟨some ⟨2⟩, some ⟨9⟩⟩ (.noSuchObject ⟨9⟩) ∧
          Placement.FirstFault r.table (some ⟨4⟩) ⟨some ⟨0⟩, some ⟨2⟩⟩ (.notSibling ⟨2⟩) ∧
            Placement.Admissible r.table (some ⟨4⟩) ⟨some ⟨1⟩, some ⟨2⟩⟩ ∧
              (r.table.move ⟨4⟩ ⟨some ⟨1⟩, some ⟨2⟩⟩).WellFormed := by
  have hr : nested.revision? "a" = some _ := rfl
  have hcheck := fun object place => reachable_nested.check_outcome hr object place
  obtain ⟨hadmissible, hperformed, -⟩ := hcheck (some ⟨4⟩) ⟨some ⟨1⟩, some ⟨2⟩⟩
  refine ⟨_, hr, ((hcheck _ _).2.2 _).mp rfl, ((hcheck _ _).2.2 _).mp rfl,
    ((hcheck _ _).2.2 _).mp rfl, hadmissible.mp rfl, ?_⟩
  exact ((hperformed _ _ (.moved _ _)).1.mp rfl).1

end Session

end Schematic
