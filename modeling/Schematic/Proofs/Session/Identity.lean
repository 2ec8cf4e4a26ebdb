import Schematic.Proofs.Session.History
import Schematic.Proofs.Session.Refusal
import Schematic.Proofs.Store.Absence

namespace Schematic

/-- A deed puts a revision in place, which begins with nothing or with what the revision that it is
forked from holds at that time. -/
inductive Deed.Begins (d : Deed) (name : String) : Revision → Prop
  | start (h : d.command = .start name) : Begins d name {}
  | fork {source : String} {r : Revision} (h : d.command = .fork name source)
      (hr : d.session.revision? source = some r) : Begins d name r

/-- No deed puts another revision in place of `name`, or lets go of it. -/
def Deed.Keeps (name : String) (deeds : List Deed) : Prop :=
  ∀ d ∈ deeds, d.command.subject = name → d.succeeds = true → d.command.works = true

def Command.LooksUp (name : String) (id : ObjectId) : Command → Prop
  | .add rev _ place => rev = name ∧ place.Names none id
  | .write rev updates => rev = name ∧ ∃ payload, (id, payload) ∈ updates
  | .delete rev object => rev = name ∧ object = id
  | .relocate rev object place => rev = name ∧ place.Names (some object) id
  | .copy _ source object => source = name ∧ object = id
  | _ => False

variable {s next : Session} {command : Command} {commands : List Command} {name other : String}
  {r : Revision} {id : ObjectId} {d : Deed} {past more : List Deed} {e : StoreError}

theorem Command.LooksUp.mutates {command : Command} {name : String} {id : ObjectId}
    (h : command.LooksUp name id) : command.mutates = true := by
  cases command with
  | add | write | delete | relocate | copy => rfl
  | _ => cases h

/-- The error with which a command is refused that looks up an object `id` in a revision `r`, under
the name `name`, that does not have it. -/
inductive Session.Misses (s : Session) (name : String) (r : Revision) (id : ObjectId) :
    Command → StoreError → Prop
  | final {command : Command} {target : Revision}
      (htarget : s.revision? command.subject = some target) (hfinal : target.transient = false) :
      Misses s name r id command .notTransient
  /-- An update in front of the one for the absent object is at fault. -/
  | earlier {front back : List (ObjectId × Payload)} {payload : Payload} {e : StoreError}
      (htransient : r.transient = true) (hfault : r.FirstFault front e) :
      Misses s name r id (.write name (front ++ (id, payload) :: back)) e
  | update {front back : List (ObjectId × Payload)} {payload : Payload}
      (htransient : r.transient = true) (hfront : ∀ e, ¬ r.FirstFault front e) :
      Misses s name r id (.write name (front ++ (id, payload) :: back)) (.noSuchObject id)
  /-- Of the absent objects that a command other than `write` looks up, one is reported. -/
  | absent {command : Command} {target : Revision} {x : ObjectId} {e : StoreError}
      (htarget : s.revision? command.subject = some target) (htransient : target.transient = true)
      (hother : ∀ updates, command ≠ .write name updates) (hlooks : command.LooksUp name x)
      (habsent : r.contains x = false) (he : e = .noSuchObject x ∨ e = .noSuchParent x) :
      Misses s name r id command e

structure Session.Ignores (s : Session) (name : String) (r : Revision) (id : ObjectId) : Prop where
  location_eq : r.location id = .error (.noSuchObject id)
  not_mem_attachedTo : ∀ place, id ∉ r.attachedTo place
  attachedTo_eq : r.attachedTo (some id) = []
  refused : ∀ command : Command, command.LooksUp name id →
    (∀ other ∈ command.names, ∃ r', s.revision? other = some r') →
      ∃ e, s.step command = (.error (.store e), s) ∧ s.Misses name r id command e
  selected_eq : ∀ sel, r.selected (sel.excluding id) = r.selected sel
  deleteSelected_eq : ∀ sel,
    s.step (.deleteSelected name (sel.excluding id)) = s.step (.deleteSelected name sel)
  apply_eq : ∀ sel change,
    s.step (.apply name (sel.excluding id) change) = s.step (.apply name sel change)
  copySelected_eq : ∀ rev sel,
    s.step (.copySelected rev name (sel.excluding id)) = s.step (.copySelected rev name sel)

namespace Deed

theorem keeps_append :
    Keeps name (past ++ more) ↔ Keeps name past ∧ Keeps name more :=
  List.forall_mem_append

theorem keeps_cons : Keeps name (d :: more) ↔
    (d.command.subject = name → d.succeeds = true → d.command.works = true) ∧
      Keeps name more :=
  List.forall_mem_cons

theorem Mints.succeeds (h : d.Mints id) : d.succeeds = true := by
  obtain ⟨-, hle, hlt⟩ := h
  cases hperform : d.session.perform d.command with
  | ok result => rw [Deed.succeeds, Session.step, hperform]; rfl
  | error reason =>
      rw [after, Session.step, hperform] at hlt
      exact absurd hlt (Nat.not_lt.mpr hle)

theorem not_mints_of_lt (hid : id.value < d.session.supply.nextId) : ¬ d.Mints id :=
  fun hmints => absurd hid (Nat.not_lt.mpr hmints.2.1)

end Deed

namespace Session

theorem deeds_append (s : Session) (commands more : List Command) :
    s.deeds (commands ++ more) = s.deeds commands ++ (s.run commands).2.deeds more := by
  induction commands generalizing s with
  | nil => rfl
  | cons command commands ih =>
      rw [List.cons_append, deeds, deeds, ih, run_cons, List.cons_append]

theorem deeds_concat (s : Session) (commands : List Command) (command : Command) :
    s.deeds (commands ++ [command]) = s.deeds commands ++ [⟨(s.run commands).2, command⟩] :=
  deeds_append s commands [command]

theorem run_concat (s : Session) (commands : List Command) (command : Command) :
    (s.run (commands ++ [command])).2 = ((s.run commands).2.step command).2 :=
  run_append s commands [command]

/-! ### One step -/

theorem Reachable.exists_turns (h : s.Reachable) (hr : s.revision? command.subject = some r)
    (hkeeps : Deed.succeeds ⟨s, command⟩ = true → command.works = true) :
    ∃ next, (s.step command).2.revision? command.subject = some next ∧
      Deed.Turns ⟨s, command⟩ r next := by
  cases hperform : s.perform command with
  | error reason =>
      refine ⟨r, ?_, Deed.turns_of_error hperform r⟩
      rw [Session.step, hperform]
      exact hr
  | ok result =>
      refine Deed.exists_turns (show Reachable (Deed.mk s command).session from h) (hkeeps ?_) hr
      rw [Deed.succeeds, Session.step, hperform]
      rfl

theorem Reachable.begins_or_turns (h : s.Reachable)
    (hr : (s.step command).2.revision? command.subject = some r) :
    (∃ began, Deed.Begins ⟨s, command⟩ command.subject began ∧ r.table = began.table) ∨
      (Deed.succeeds ⟨s, command⟩ = true → command.works = true) ∧
        ∃ old, s.revision? command.subject = some old ∧ Deed.Turns ⟨s, command⟩ old r := by
  have hturns : (Deed.succeeds ⟨s, command⟩ = true → command.works = true) →
      (∃ old, s.revision? command.subject = some old) →
        ∃ old, s.revision? command.subject = some old ∧ Deed.Turns ⟨s, command⟩ old r := by
    rintro hkeeps ⟨old, hold⟩
    obtain ⟨next, hnext, hturns⟩ := h.exists_turns hold hkeeps
    cases hnext.symm.trans hr
    exact ⟨old, hold, hturns⟩
  cases hperform : s.perform command with
  | error reason =>
      have hkeeps : Deed.succeeds ⟨s, command⟩ = true → command.works = true := by
        rw [Deed.succeeds, Session.step, hperform]
        exact fun h => by cases h
      rw [Session.step, hperform] at hr
      exact .inr ⟨hkeeps, hturns hkeeps ⟨r, hr⟩⟩
  | ok result =>
      cases hworks : command.works with
      | true =>
          refine .inr ⟨fun _ => rfl, hturns (fun _ => hworks) ?_⟩
          refine exists_of_perform hperform ?_
          rw [Command.names, if_pos hworks]
          exact List.mem_cons_self
      | false =>
          have hput := putInPlace_of_perform hworks hperform
          rw [step_eq_of_perform hperform] at hr
          rw [hr] at hput
          cases hput with
          | start rev => exact .inl ⟨_, .start rfl, rfl⟩
          | fork hold => exact .inl ⟨_, .fork rfl hold, rfl⟩

/-- A step brings no object into a session except those that it mints. -/
theorem Reachable.present_or_mints (h : s.Reachable)
    (hr : (s.step command).2.revision? name = some r) (hid : r.contains id = true) :
    (∃ other r', s.revision? other = some r' ∧ r'.contains id = true) ∨
      Deed.Mints ⟨s, command⟩ id := by
  by_cases hname : command.subject = name
  · subst hname
    rcases h.begins_or_turns hr with ⟨began, hbegins, htable⟩ | ⟨-, old, hold, hturns⟩
    · rw [Revision.contains, htable] at hid
      cases hbegins with
      | start _ => simp [Table.contains, Table.get?_empty] at hid
      | @fork source _ _ hr' => exact .inl ⟨source, _, hr', hid⟩
    · rcases (hturns.contains_iff id).mp hid with ⟨hid, -⟩ | hmints
      · exact .inl ⟨_, old, hold, hid⟩
      · exact .inr hmints
  · rw [revision?_step_of_ne s hname] at hr
    exact .inl ⟨name, r, hr, hid⟩

/-! ### Runs -/

theorem Reachable.of_mem_deeds (h : s.Reachable) (hd : d ∈ s.deeds commands) :
    d.session.Reachable ∧ d.session.supply.Remains s.supply := by
  induction commands generalizing s with
  | nil => cases hd
  | cons command commands ih =>
      rcases List.mem_cons.mp hd with rfl | hd
      · exact ⟨h, .refl _⟩
      · obtain ⟨hreachable, hremains⟩ := ih (h.step command) hd
        exact ⟨hreachable, hremains.trans (h.remains_step command)⟩

theorem Reachable.pairwise_deeds (h : s.Reachable) (commands : List Command) :
    (s.deeds commands).Pairwise fun d e => ∀ id, d.Mints id → ¬ e.Mints id := by
  induction commands generalizing s with
  | nil => exact .nil
  | cons command commands ih =>
      refine .cons (fun e he id hmints => Deed.not_mints_of_lt ?_) (ih (h.step command))
      have hremains := ((h.step command).of_mem_deeds he).2
      exact Nat.lt_of_lt_of_le hmints.2.2 hremains.1

theorem Reachable.present_or_exists_mints (h : s.Reachable)
    (hr : (s.run commands).2.revision? name = some r) (hid : r.contains id = true) :
    (∃ other r', s.revision? other = some r' ∧ r'.contains id = true) ∨
      ∃ d ∈ s.deeds commands, d.Mints id := by
  induction commands generalizing s with
  | nil => exact .inl ⟨name, r, hr, hid⟩
  | cons command commands ih =>
      rw [run_cons] at hr
      rw [deeds]
      rcases ih (h.step command) hr with ⟨other, r', hr', hid'⟩ | ⟨d, hd, hmints⟩
      · rcases h.present_or_mints hr' hid' with hold | hmints
        · exact .inl hold
        · exact .inr ⟨_, List.mem_cons_self, hmints⟩
      · exact .inr ⟨d, List.mem_cons_of_mem _ hd, hmints⟩

theorem not_mints_again (supply : Supply) {e : Deed} (hd : d ∈ deeds { supply } commands)
    (hmints : d.Mints id) {more : List Command}
    (he : e ∈ (run { supply } commands).2.deeds more) : ¬ e.Mints id := by
  have hpairwise := (Reachable.start supply).pairwise_deeds (commands ++ more)
  rw [deeds_append, List.pairwise_append] at hpairwise
  exact hpairwise.2.2 d hd e he id hmints

theorem exists_unique_mints (supply : Supply)
    (hr : (run { supply } commands).2.revision? name = some r) (hid : r.contains id = true) :
    ∃ front d back, deeds { supply } commands = front ++ d :: back ∧ d.Mints id ∧
      ∀ e ∈ front ++ back, ¬ e.Mints id := by
  have hstart : Reachable { supply } := .start supply
  rcases hstart.present_or_exists_mints hr hid with ⟨other, r', hr', -⟩ | ⟨d, hd, hmints⟩
  · simp [revision?] at hr'
  · obtain ⟨front, back, hdeeds⟩ := List.append_of_mem hd
    have hpairwise := hstart.pairwise_deeds commands
    rw [hdeeds, List.pairwise_append, List.pairwise_cons] at hpairwise
    obtain ⟨-, ⟨hback, -⟩, hfront⟩ := hpairwise
    refine ⟨front, d, back, hdeeds, hmints, fun e he => ?_⟩
    rcases List.mem_append.mp he with he | he
    · exact fun hmints' => hfront e he d List.mem_cons_self id hmints' hmints
    · exact hback e he id hmints

/-- Every revision has begun at some time, and holds nothing but what it began with and what has
been minted on it since. -/
theorem exists_begins {supply : Supply}
    (hr : (run { supply } commands).2.revision? name = some r) :
    ∃ front birth later began, deeds { supply } commands = front ++ birth :: later ∧
      birth.Begins name began ∧ Deed.Keeps name later ∧
        ∀ id, r.contains id = true → began.contains id = true ∨
          ∃ d ∈ later, d.command.subject = name ∧ d.succeeds = true ∧ d.Mints id := by
  induction commands using List.reverseRecOn generalizing r with
  | nil => simp [run, revision?] at hr
  | append_singleton commands command ih =>
      have h : (run { supply } commands).2.Reachable := (Reachable.start supply).run commands
      rw [run_concat] at hr
      rw [deeds_concat]
      generalize hd : (⟨(run { supply } commands).2, command⟩ : Deed) = d
      have hcommand : d.command = command := hd ▸ rfl
      by_cases hname : command.subject = name
      · subst hname
        -- The last command has made the revision anew, or has worked on the one there was.
        rcases h.begins_or_turns hr with ⟨began, hbegins, htable⟩ | ⟨hkeeps, old, hold, hturns⟩
        · refine ⟨_, _, [], began, rfl, hd ▸ hbegins, List.forall_mem_nil _, fun id hid => .inl ?_⟩
          rwa [Revision.contains, ← htable, ← Revision.contains]
        · rw [hd] at hkeeps hturns
          obtain ⟨front, birth, later, began, hdeeds, hbegins, hlater, hprovenance⟩ := ih hold
          refine ⟨front, birth, later ++ [d], began, by rw [hdeeds]; simp, hbegins,
            Deed.keeps_append.mpr ⟨hlater, Deed.keeps_cons.mpr
              ⟨fun _ => hcommand ▸ hkeeps, List.forall_mem_nil _⟩⟩, fun id hid => ?_⟩
          rcases (hturns.contains_iff id).mp hid with ⟨hid, -⟩ | hmints
          · rcases hprovenance id hid with hbegan | ⟨e, he, hmints⟩
            · exact .inl hbegan
            · exact .inr ⟨e, List.mem_append_left _ he, hmints⟩
          · exact .inr ⟨d, List.mem_append_right _ (List.mem_singleton_self d), hcommand ▸ rfl,
              hmints.succeeds, hmints⟩
      · rw [revision?_step_of_ne _ hname] at hr
        obtain ⟨front, birth, later, began, hdeeds, hbegins, hlater, hprovenance⟩ := ih hr
        refine ⟨front, birth, later ++ [d], began, by rw [hdeeds]; simp, hbegins,
          Deed.keeps_append.mpr ⟨hlater, Deed.keeps_cons.mpr ⟨fun hsubject =>
            absurd (hcommand ▸ hsubject) hname, List.forall_mem_nil _⟩⟩, fun id hid => ?_⟩
        rcases hprovenance id hid with hbegan | ⟨e, he, hmints⟩
        · exact .inl hbegan
        · exact .inr ⟨e, List.mem_append_left _ he, hmints⟩

/-- An object that a revision does not have stays absent from it unless it is minted there. -/
theorem Reachable.absent_run (h : s.Reachable) (hr : s.revision? name = some r)
    (habsent : r.contains id = false) (hkeeps : Deed.Keeps name (s.deeds commands))
    (hmints : ∀ d ∈ s.deeds commands, d.command.subject = name → ¬ d.Mints id) :
    ∃ next, (s.run commands).2.revision? name = some next ∧ next.contains id = false := by
  induction commands generalizing s r with
  | nil => exact ⟨r, hr, habsent⟩
  | cons command commands ih =>
      obtain ⟨hfirst, hrest⟩ := Deed.keeps_cons.mp hkeeps
      obtain ⟨hfirst', hrest'⟩ := List.forall_mem_cons.mp hmints
      rw [run_cons]
      by_cases hname : command.subject = name
      · subst hname
        obtain ⟨next, hnext, hturns⟩ := h.exists_turns hr (hfirst rfl)
        refine ih (h.step command) hnext ?_ hrest hrest'
        rw [← Bool.not_eq_true, hturns.contains_iff, habsent]
        simp [hfirst' rfl]
      · exact ih (h.step command) ((revision?_step_of_ne s hname).trans hr) habsent hrest hrest'

/-! ### Absent objects -/

theorem Reachable.exists_fault_of_absent {target : Revision} (h : s.Reachable)
    (hr : s.revision? name = some r) (habsent : r.contains id = false)
    (hlooks : command.LooksUp name id) (htarget : s.revision? command.subject = some target)
    (htransient : target.transient = true) :
    ∃ e, s.Fault target command e ∧ s.Misses name r id command e := by
  have wf := (h.sound hr).wellFormed
  cases command with
  | add rev payload place =>
      obtain ⟨rfl, hid⟩ := hlooks
      cases hr.symm.trans htarget
      obtain ⟨e, x, hcheck, hx, hx', he⟩ := Placement.exists_check_eq_error wf hid habsent
      exact ⟨e, .placement hcheck, .absent hr htransient nofun ⟨rfl, hx⟩ hx' he⟩
  | relocate rev object place =>
      obtain ⟨rfl, hid⟩ := hlooks
      cases hr.symm.trans htarget
      obtain ⟨e, x, hcheck, hx, hx', he⟩ := Placement.exists_check_eq_error wf hid habsent
      exact ⟨e, .relocate hcheck, .absent hr htransient nofun ⟨rfl, hx⟩ hx' he⟩
  | delete rev object =>
      obtain ⟨rfl, rfl⟩ := hlooks
      cases hr.symm.trans htarget
      exact ⟨_, .delete habsent, .absent hr htransient nofun ⟨rfl, rfl⟩ habsent (.inl rfl)⟩
  | copy rev source object =>
      obtain ⟨rfl, rfl⟩ := hlooks
      exact ⟨_, .copy hr habsent,
        .absent htarget htransient nofun ⟨rfl, rfl⟩ habsent (.inl rfl)⟩
  | write rev updates =>
      obtain ⟨rfl, payload, hmem⟩ := hlooks
      cases hr.symm.trans htarget
      obtain ⟨front, back, rfl⟩ := List.append_of_mem hmem
      -- Only the first update at fault is reported, and one in front may be at fault as well.
      rcases Revision.firstFault_of_absent habsent front payload back with
        ⟨e, hfront, hfirst⟩ | ⟨hfront, hfirst⟩
      · exact ⟨e, .write hfirst, .earlier htransient hfront⟩
      · exact ⟨_, .write hfirst, .update htransient hfront⟩
  | _ => cases hlooks

theorem Reachable.misses (h : s.Reachable) (hr : s.revision? name = some r)
    (habsent : r.contains id = false) (hlooks : command.LooksUp name id)
    (hnames : ∀ other ∈ command.names, ∃ r', s.revision? other = some r') :
    ∃ e, s.step command = (.error (.store e), s) ∧ s.Misses name r id command e := by
  have hmutates : command.mutates = true := hlooks.mutates
  rw [Command.names, if_pos (Command.works_of_mutates hmutates), List.forall_mem_cons] at hnames
  obtain ⟨⟨target, htarget⟩, hreads⟩ := hnames
  suffices hrefuses : ∃ e, s.Refuses command e ∧ s.Misses name r id command e by
    obtain ⟨e, hrefuses, hmisses⟩ := hrefuses
    refine ⟨e, ?_, hmisses⟩
    rw [Session.step, h.perform_eq_store_iff.mpr hrefuses]
  cases htransient : target.transient with
  | false =>
      exact ⟨_, ⟨hmutates, hreads, target, htarget, .inl ⟨htransient, rfl⟩⟩,
        .final htarget htransient⟩
  | true =>
      obtain ⟨e, hfault, hmisses⟩ := h.exists_fault_of_absent hr habsent hlooks htarget htransient
      exact ⟨e, ⟨hmutates, hreads, target, htarget, .inr ⟨htransient, hfault⟩⟩, hmisses⟩

theorem Reachable.ignores (h : s.Reachable) (hr : s.revision? name = some r)
    (habsent : r.contains id = false) : s.Ignores name r id := by
  have wf := (h.sound hr).wellFormed
  have hok : ∀ {β : Type} (f : Revision → Except Refusal β), (s.revision name >>= f) = f r :=
    fun f => by rw [revision_eq_ok_iff.mpr hr]; rfl
  have hstep : ∀ {command command' : Command}, s.perform command = s.perform command' →
      s.step command = s.step command' := fun heq => by rw [Session.step, heq, Session.step]
  exact {
    location_eq := Revision.location_eq_error_of_absent habsent
    not_mem_attachedTo := Revision.not_mem_attachedTo_of_absent wf habsent
    attachedTo_eq := Revision.attachedTo_eq_nil_of_absent wf habsent
    refused := fun command => h.misses hr habsent
    selected_eq := fun sel => Revision.selected_excluding sel wf habsent
    deleteSelected_eq := fun sel => hstep <| by
      simp only [perform, hok, Revision.deleteSelected_excluding sel wf habsent]
    apply_eq := fun sel change => hstep <| by
      simp only [perform, hok, Revision.apply_excluding sel wf habsent]
    copySelected_eq := fun rev sel => hstep <| by
      simp only [perform, hok, Revision.copySelected_excluding sel wf habsent] }

/-- No identity is used twice. What a revision holds was in the revision it was forked from, at that
time, or has been minted on it since; what it does not have stays away unless it is minted on it,
which can only be once and before; and what is copied is new in every revision. -/
theorem identities (supply : Supply) (commands : List Command) :
    (∀ name r, (run { supply } commands).2.revision? name = some r →
      ∃ front birth later began, deeds { supply } commands = front ++ birth :: later ∧
        birth.Begins name began ∧ Deed.Keeps name later ∧
          ∀ id, r.contains id = true → began.contains id = true ∨
            ∃ d ∈ later, d.command.subject = name ∧ d.succeeds = true ∧ d.Mints id) ∧
    (∀ name r id, (run { supply } commands).2.revision? name = some r → r.contains id = true →
      ∃ front d back, deeds { supply } commands = front ++ d :: back ∧ d.Mints id ∧
        ∀ e ∈ front ++ back, ¬ e.Mints id) ∧
    (∀ d ∈ deeds { supply } commands, ∀ id, d.Mints id → ∀ name r,
      d.session.revision? name = some r → r.contains id = false) ∧
    ∀ name r id, (run { supply } commands).2.revision? name = some r → r.contains id = false →
      (run { supply } commands).2.Ignores name r id ∧
      ∀ more, Deed.Keeps name ((run { supply } commands).2.deeds more) →
        (∃ d ∈ deeds { supply } commands, d.Mints id) ∨
          (∀ d ∈ (run { supply } commands).2.deeds more, d.command.subject = name →
            ¬ d.Mints id) →
        ∃ next, ((run { supply } commands).2.run more).2.revision? name = some next ∧
          next.contains id = false ∧
            ((run { supply } commands).2.run more).2.Ignores name next id := by
  have hstart : Reachable { supply } := .start supply
  have h := hstart.run commands
  refine ⟨fun _ _ => exists_begins, ?once, ?fresh, ?absent⟩
  case once =>
    intro name r id hr hid
    exact exists_unique_mints supply hr hid
  case fresh =>
    intro d hd id hmints name r hr
    exact ((hstart.of_mem_deeds hd).1.sound hr).not_contains hmints.2.1
  case absent =>
    intro name r id hr habsent
    refine ⟨h.ignores hr habsent, fun more hkeeps hminted => ?_⟩
    have hnone : ∀ d ∈ (run { supply } commands).2.deeds more, d.command.subject = name →
        ¬ d.Mints id := by
      rcases hminted with ⟨d, hd, hmints⟩ | hnone
      · exact fun e he _ => not_mints_again supply hd hmints he
      · exact hnone
    obtain ⟨next, hnext, hgone⟩ := h.absent_run hr habsent hkeeps hnone
    exact ⟨next, hnext, hgone, (h.run more).ignores hnext hgone⟩

def lostLabel : List Command :=
  [.start "r", .add "r" (.blank .text) .top, .add "r" (.blank .text) .top, .delete "r" ⟨1⟩,
    .fork "s" "r", .copy "s" "r" ⟨0⟩]

theorem identities_lostLabel :
    ∃ r next, (run {} lostLabel).2.revision? "r" = some r ∧ r.contains ⟨1⟩ = false ∧
      (∃ d ∈ deeds {} lostLabel, d.Mints ⟨1⟩) ∧
        ((run {} lostLabel).2.run [.add "r" (.blank .text) .top, .delete "r" ⟨1⟩]).2.revision? "r" =
            some next ∧
          next.contains ⟨1⟩ = false ∧
            ((run {} lostLabel).2.run [.add "r" (.blank .text) .top, .delete "r" ⟨1⟩]).2.Ignores "r"
              next ⟨1⟩ := by
  have hr : (run {} lostLabel).2.revision? "r" = some _ := rfl
  have hminted : ∃ d ∈ deeds {} lostLabel, d.Mints ⟨1⟩ :=
    ⟨_, .tail _ (.tail _ (.head _)), rfl, by decide, by decide⟩
  obtain ⟨-, hrun⟩ := (identities {} lostLabel).2.2.2 "r" _ ⟨1⟩ hr rfl
  obtain ⟨next, hnext, habsent, hignores⟩ :=
    hrun [.add "r" (.blank .text) .top, .delete "r" ⟨1⟩] (show ∀ d ∈ _, _ by decide) (.inl hminted)
  exact ⟨_, next, hr, rfl, hminted, hnext, habsent, hignores⟩

/-- An absent object is not always what is reported: an earlier update in a list may be at fault,
and a final revision refuses whatever it is asked for. -/
theorem lostLabel_refused_otherwise :
    ∃ r, (run {} lostLabel).2.revision? "r" = some r ∧ r.transient = true ∧
      r.contains ⟨1⟩ = false ∧ (∃ d ∈ deeds {} lostLabel, d.Deletes ⟨1⟩) ∧
        (¬ ∀ command : Command, command.LooksUp "r" ⟨1⟩ → ∃ x,
          ((run {} lostLabel).2.step command).1 = .error (.store (.noSuchObject x)) ∨
            ((run {} lostLabel).2.step command).1 = .error (.store (.noSuchParent x))) ∧
          ¬ ∀ command : Command, command.LooksUp "r" ⟨1⟩ → ∃ x,
            ((run {} (lostLabel ++ [.finalize "r"])).2.step command).1 =
                .error (.store (.noSuchObject x)) ∨
              ((run {} (lostLabel ++ [.finalize "r"])).2.step command).1 =
                .error (.store (.noSuchParent x)) := by
  refine ⟨_, rfl, rfl, rfl, ⟨_, .tail _ (.tail _ (.tail _ (.head _))), rfl, _, rfl, by decide⟩,
    fun h => ?_, fun h => ?_⟩
  · obtain ⟨x, hx | hx⟩ := h (.write "r" [(⟨0⟩, .text { color := 99 }), (⟨1⟩, .text {})])
      ⟨rfl, _, .tail _ (.head _)⟩
    · cases hx
    · cases hx
  · obtain ⟨x, hx | hx⟩ := h (.delete "r" ⟨1⟩) ⟨rfl, rfl⟩
    · cases hx
    · cases hx

end Session

end Schematic
