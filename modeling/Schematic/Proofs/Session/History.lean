import Schematic.Proofs.Session.Commands
import Schematic.Proofs.Store.Change

/-!
A revision comes from another one by deeds, which are done on it or on the revisions between the
two, each before the next one was forked. The difference of the two compares the ends only; the
deeds are a history of any length.
-/

namespace Schematic

structure Deed where
  session : Session
  command : Command

namespace Deed

def after (d : Deed) : Session := (d.session.step d.command).2

def succeeds (d : Deed) : Bool := (d.session.step d.command).1.isOk

/-- A deed makes a new object, with an identity that it takes from the supply. -/
def Mints (d : Deed) (id : ObjectId) : Prop :=
  d.command.creates = true ∧ d.session.supply.nextId ≤ id.value ∧
    id.value < d.after.supply.nextId

/-- A deed deletes an object, or something that the object lies below. -/
def Deletes (d : Deed) (id : ObjectId) : Prop :=
  d.succeeds = true ∧ ∃ r, d.session.revision? d.command.subject = some r ∧
    id ∈ (d.command.deleted r).flatMap r.table.subtree

/-- A deed writes a payload that is not the same, in its normal form, as the one that is held. -/
def Rewrites (d : Deed) (id : ObjectId) : Prop :=
  d.succeeds = true ∧ ∃ r, d.session.revision? d.command.subject = some r ∧
    r.Replaces (d.command.updates r) id

structure Turns (d : Deed) (r next : Revision) : Prop where
  remains : d.after.supply.Remains d.session.supply
  contains_iff : ∀ id, next.contains id = true ↔
    r.contains id = true ∧ ¬ d.Deletes id ∨ d.Mints id
  state?_eq : ∀ id, r.contains id = true → next.contains id = true → ¬ d.Rewrites id →
    next.state? id = r.state? id
  stamp_le : ∀ id state, d.Rewrites id → next.state? id = some state →
    d.session.supply.nextStamp ≤ state.stamp

def MintedAndKept (deeds : List Deed) (id : ObjectId) : Prop :=
  ∃ earlier d later, deeds = earlier ++ d :: later ∧ d.Mints id ∧ ∀ l ∈ later, ¬ l.Deletes id

end Deed

/-- How a revision has come from the revision `base` of the session `origin`: by the deeds that were
done on it, and on those before it until it was forked from them. What is done with other revisions
meanwhile does not count. -/
inductive Session.Derived (origin : Session) (base : String) :
    Session → String → List Deed → Prop
  | base : Derived origin base origin base []
  | work {s : Session} {name : String} {deeds : List Deed} {command : Command}
      (h : Derived origin base s name deeds) (hsubject : command.subject = name)
      (hworks : command.works = true) :
      Derived origin base (s.step command).2 name (deeds ++ [⟨s, command⟩])
  | elsewhere {s : Session} {name : String} {deeds : List Deed} {command : Command}
      (h : Derived origin base s name deeds) (hsubject : command.subject ≠ name) :
      Derived origin base (s.step command).2 name deeds
  | fork {s : Session} {name : String} {deeds : List Deed} (rev : String)
      (h : Derived origin base s name deeds) :
      Derived origin base (s.step (.fork rev name)).2 rev deeds

def Session.deeds (s : Session) : List Command → List Deed
  | [] => []
  | command :: commands => ⟨s, command⟩ :: (s.step command).2.deeds commands

structure Difference.Recounts (source target : Revision) (deeds : List Deed) : Prop where
  mem_modified_iff : ∀ id, id ∈ (between source target).modified ↔
    source.contains id = true ∧ target.contains id = true ∧
      ((∃ d ∈ deeds, d.Rewrites id) ∨ source.location? id ≠ target.location? id)
  mem_added_iff : ∀ id, id ∈ (between source target).added ↔ Deed.MintedAndKept deeds id
  mem_removed_iff : ∀ id, id ∈ (between source target).removed ↔
    source.contains id = true ∧ ∃ d ∈ deeds, d.Deletes id

variable {s origin next : Session} {command : Command} {answer : Answer} {name base : String}
  {r source : Revision} {deeds : List Deed} {d : Deed} {id : ObjectId}

namespace Session

/-! ### One deed -/

theorem Reachable.changed_of_perform (hs : s.Reachable) (hworks : command.works = true)
    (h : s.perform command = .ok (answer, next)) :
    ∃ r changed left, s.revision? command.subject = some r ∧
      next = s.update command.subject (changed, left) ∧
        r.Changed s.supply (command.deleted r) (command.updates r) changed left ∧
          (command.creates = false → left.nextId = s.supply.nextId) := by
  cases perform_eq_ok_iff.mp h with
  | start rev | fork rev hr | drop rev => cases hworks
  | @finalize rev r hr =>
      exact ⟨r, r.finalize, s.supply, hr, rfl, .of_same fun _ => rfl, fun _ => rfl⟩
  | add hr hadd =>
      exact ⟨_, _, _, hr, rfl, Revision.changed_of_add (hs.sound hr) hadd, by
        simp [Command.creates]⟩
  | write hr hwrite | apply hr hwrite =>
      exact ⟨_, _, _, hr, rfl, Revision.changed_of_write hwrite,
        fun _ => Revision.nextId_of_write hwrite⟩
  | delete hr hdelete =>
      exact ⟨_, _, s.supply, hr, rfl, Revision.changed_of_delete hdelete, fun _ => rfl⟩
  | deleteSelected hr hdelete =>
      exact ⟨_, _, s.supply, hr, rfl,
        Revision.changed_of_deleteSelected (hs.sound hr).wellFormed hdelete, fun _ => rfl⟩
  | relocate hr hrelocate =>
      exact ⟨_, _, s.supply, hr, rfl, Revision.changed_of_relocate hrelocate, fun _ => rfl⟩
  | copy hr hother hcopy =>
      exact ⟨_, _, _, hr, rfl, Revision.changed_of_copy (hs.sound hother) (hs.sound hr) hcopy, by
        simp [Command.creates]⟩
  | copySelected hr hother hcopy =>
      exact ⟨_, _, _, hr, rfl,
        Revision.changed_of_copySelected (hs.sound hother) (hs.sound hr) hcopy, by
          simp [Command.creates]⟩

end Session

namespace Deed

theorem mintedAndKept_append_singleton :
    MintedAndKept (deeds ++ [d]) id ↔ MintedAndKept deeds id ∧ ¬ d.Deletes id ∨ d.Mints id := by
  constructor
  · rintro ⟨earlier, e, later, hsplit, hmints, hkept⟩
    rcases List.eq_nil_or_concat later with rfl | ⟨rest, last, rfl⟩
    · obtain ⟨-, heq⟩ := List.append_inj' hsplit rfl
      cases heq
      exact .inr hmints
    · rw [List.concat_eq_append, ← List.cons_append, ← List.append_assoc] at hsplit
      obtain ⟨hdeeds, heq⟩ := List.append_inj' hsplit rfl
      cases heq
      refine .inl ⟨⟨earlier, e, rest, hdeeds, hmints, fun l hl => hkept l ?_⟩, hkept d ?_⟩
      · simp [hl]
      · simp
  · rintro (⟨⟨earlier, e, later, rfl, hmints, hkept⟩, hlast⟩ | hmints)
    · refine ⟨earlier, e, later ++ [d], by simp, hmints, fun l hl => ?_⟩
      rcases List.mem_append.mp hl with hl | hl
      · exact hkept l hl
      · exact List.mem_singleton.mp hl ▸ hlast
    · exact ⟨deeds, d, [], rfl, hmints, by simp⟩

theorem turns_of_error {reason : Refusal} (h : d.session.perform d.command = .error reason)
    (r : Revision) : d.Turns r r := by
  have hafter : d.after = d.session := by rw [after, Session.step, h]
  have hfails : d.succeeds = false := by rw [succeeds, Session.step, h]; rfl
  have hdeletes : ∀ id, ¬ d.Deletes id := fun id hdeletes => by simp [hdeletes.1] at hfails
  have hmints : ∀ id, ¬ d.Mints id := by
    rintro id ⟨-, hle, hlt⟩
    rw [hafter] at hlt
    omega
  refine ⟨hafter ▸ .refl _, fun id => ?_, fun id _ _ _ => rfl, fun id state hrewrites => ?_⟩
  · rw [or_iff_left (hmints id), and_iff_left (hdeletes id)]
  · simp [hrewrites.1] at hfails

theorem turns_of_ok {changed : Revision} {left : Supply} (h : d.session.perform d.command =
      .ok (answer, d.session.update d.command.subject (changed, left)))
    (hr : d.session.revision? d.command.subject = some r)
    (hchanged : r.Changed d.session.supply (d.command.deleted r) (d.command.updates r) changed left)
    (hcreates : d.command.creates = false → left.nextId = d.session.supply.nextId) :
    d.Turns r changed := by
  have hleft : d.after.supply = left := by rw [after, Session.step, h]; rfl
  have hsucceeds : d.succeeds = true := by rw [succeeds, Session.step, h]; rfl
  have hdeletes : ∀ id, d.Deletes id ↔ id ∈ (d.command.deleted r).flatMap r.table.subtree := by
    simp [Deletes, hsucceeds, hr]
  have hrewrites : ∀ id, d.Rewrites id ↔ r.Replaces (d.command.updates r) id := by
    simp [Rewrites, hsucceeds, hr]
  have hmints : ∀ id, d.Mints id ↔
      d.session.supply.nextId ≤ id.value ∧ id.value < left.nextId := by
    intro id
    rw [Mints, hleft, and_iff_right_iff_imp]
    rintro ⟨hle, hlt⟩
    by_contra hnone
    have := hcreates (eq_false_of_ne_true hnone)
    omega
  refine ⟨hleft ▸ hchanged.remains, fun id => ?_, fun id hid hnext hkept => ?_,
    fun id state hreplaces => ?_⟩
  · rw [hdeletes, hmints]
    exact hchanged.contains_iff id
  · exact hchanged.state?_eq id hid hnext (mt (hrewrites id).mpr hkept)
  · exact hchanged.stamp_le id state ((hrewrites id).mp hreplaces)

theorem exists_turns (h : d.session.Reachable) (hworks : d.command.works = true)
    (hr : d.session.revision? d.command.subject = some r) :
    ∃ next, d.after.revision? d.command.subject = some next ∧ d.Turns r next := by
  cases hperform : d.session.perform d.command with
  | error reason =>
      refine ⟨r, ?_, turns_of_error hperform r⟩
      rw [after, Session.step, hperform]
      exact hr
  | ok result =>
      obtain ⟨answer, next⟩ := result
      obtain ⟨r', changed, left, hr', rfl, hchanged, hcreates⟩ :=
        h.changed_of_perform hworks hperform
      cases hr.symm.trans hr'
      refine ⟨changed, ?_, turns_of_ok hperform hr hchanged hcreates⟩
      rw [after, Session.step, hperform]
      exact Session.revision?_update_self _ _ _

end Deed

/-! ### Many deeds -/

/-- What the deeds that led from `source` to `target` account for, if `supply` was left when they
began. -/
structure Deed.Account (supply : Supply) (source target : Revision) (deeds : List Deed) : Prop where
  contains_iff : ∀ id, target.contains id = true ↔
    source.contains id = true ∧ (∀ d ∈ deeds, ¬ d.Deletes id) ∨ MintedAndKept deeds id
  le_of_minted : ∀ id, MintedAndKept deeds id → supply.nextId ≤ id.value
  state?_eq : ∀ id, source.contains id = true → target.contains id = true →
    (∀ d ∈ deeds, ¬ d.Rewrites id) → target.state? id = source.state? id
  stamp_le : ∀ id state, source.contains id = true → (∃ d ∈ deeds, d.Rewrites id) →
    target.state? id = some state → supply.nextStamp ≤ state.stamp

namespace Deed.Account

variable {supply : Supply} {target : Revision}

theorem nil (supply : Supply) (source : Revision) : Account supply source source [] where
  contains_iff id := by simp [MintedAndKept]
  le_of_minted id := by simp [MintedAndKept]
  state?_eq _ _ _ _ := rfl
  stamp_le _ _ _ h := by simp at h

/-- One more deed. What it mints is new, since the supply has only been used up in between. -/
theorem snoc {next : Revision} (h : Account supply source target deeds)
    (hsource : source.table.Sound supply) (hsupply : d.session.supply.Remains supply)
    (hturns : d.Turns target next) : Account supply source next (deeds ++ [d]) := by
  have hnew : ∀ id, d.Mints id → supply.nextId ≤ id.value := fun id hmints =>
    Nat.le_trans hsupply.1 hmints.2.1
  -- What the source has cannot have gone and come back, since no identity is minted again.
  have hold : ∀ id, source.contains id = true → next.contains id = true →
      target.contains id = true := by
    intro id hid hnext
    rcases (hturns.contains_iff id).mp hnext with ⟨htarget, -⟩ | hmints
    · exact htarget
    · rw [Revision.contains, hsource.not_contains (hnew id hmints)] at hid
      cases hid
  refine ⟨fun id => ?_, fun id hminted => ?_, fun id hid hnext hkept => ?_,
    fun id state hid hrewrites hstate => ?_⟩
  · rw [hturns.contains_iff, h.contains_iff, mintedAndKept_append_singleton]
    simp only [List.forall_mem_append, List.forall_mem_singleton]
    tauto
  · rcases mintedAndKept_append_singleton.mp hminted with ⟨hminted, -⟩ | hmints
    · exact h.le_of_minted id hminted
    · exact hnew id hmints
  · simp only [List.forall_mem_append, List.forall_mem_singleton] at hkept
    have htarget := hold id hid hnext
    rw [hturns.state?_eq id htarget hnext hkept.2, h.state?_eq id hid htarget hkept.1]
  · by_cases hlast : d.Rewrites id
    · exact Nat.le_trans hsupply.2 (hturns.stamp_le id state hlast hstate)
    · have hnext := Revision.contains_iff_exists_state?.mpr ⟨state, hstate⟩
      have htarget := hold id hid hnext
      rw [hturns.state?_eq id htarget hnext hlast] at hstate
      obtain ⟨e, he, hrewrites⟩ := hrewrites
      rcases List.mem_append.mp he with he | he
      · exact h.stamp_le id state hid ⟨e, he, hrewrites⟩ hstate
      · exact absurd (List.mem_singleton.mp he ▸ hrewrites) hlast

theorem exists_rewrites_iff (h : Account supply source target deeds)
    (hsource : source.table.Sound supply) {old new : ObjectState}
    (hold : source.state? id = some old) (hnew : target.state? id = some new) :
    (∃ d ∈ deeds, d.Rewrites id) ↔ old.stamp ≠ new.stamp := by
  have hid := Revision.contains_iff_exists_state?.mpr ⟨old, hold⟩
  have hid' := Revision.contains_iff_exists_state?.mpr ⟨new, hnew⟩
  constructor
  · intro hrewrites
    obtain ⟨entry, hentry, rfl⟩ := Option.map_eq_some_iff.mp hold
    have hlt := (hsource.issued hentry).stamp_lt
    have hle := h.stamp_le id new hid hrewrites hnew
    omega
  · intro hstamp
    by_contra hnone
    have hsame := h.state?_eq id hid hid' fun d hd hrewrites => hnone ⟨d, hd, hrewrites⟩
    rw [hold, hnew, Option.some.injEq] at hsame
    exact hstamp (congrArg ObjectState.stamp hsame.symm)

theorem not_mintedAndKept (h : Account supply source target deeds)
    (hsource : source.table.Sound supply) (hid : source.contains id = true) :
    ¬ MintedAndKept deeds id := by
  intro hminted
  rw [Revision.contains, hsource.not_contains (h.le_of_minted id hminted)] at hid
  cases hid

theorem recounts (h : Account supply source target deeds) (hsource : source.table.Sound supply)
    (wf : target.table.WellFormed) : Difference.Recounts source target deeds := by
  refine ⟨fun id => ?_, fun id => ?_, fun id => ?_⟩
  · rw [Difference.mem_modified_iff wf, Revision.contains_iff_exists_state?,
      Revision.contains_iff_exists_state?]
    constructor
    · rintro ⟨old, new, hold, hnew, hdiffers⟩
      rw [← h.exists_rewrites_iff hsource hold hnew] at hdiffers
      exact ⟨⟨old, hold⟩, ⟨new, hnew⟩, hdiffers⟩
    · rintro ⟨⟨old, hold⟩, ⟨new, hnew⟩, hdiffers⟩
      rw [h.exists_rewrites_iff hsource hold hnew] at hdiffers
      exact ⟨old, new, hold, hnew, hdiffers⟩
  · rw [Difference.mem_added_iff wf, h.contains_iff]
    constructor
    · rintro ⟨⟨hid, -⟩ | hkept, habsent⟩
      · rw [habsent] at hid
        cases hid
      · exact hkept
    · intro hkept
      exact ⟨.inr hkept, eq_false_of_ne_true fun hid => h.not_mintedAndKept hsource hid hkept⟩
  · rw [Difference.mem_removed_iff hsource.wellFormed, ← Bool.not_eq_true, h.contains_iff]
    refine and_congr_right fun hid => ?_
    rw [or_iff_left (h.not_mintedAndKept hsource hid), and_iff_right hid]
    simp only [not_forall, not_not, exists_prop]

end Deed.Account

namespace Session

theorem Derived.exists_account (h : Derived origin base s name deeds) (ho : origin.Reachable)
    (hsource : origin.revision? base = some source) :
    s.Reachable ∧ s.supply.Remains origin.supply ∧
      ∃ target, s.revision? name = some target ∧
        Deed.Account origin.supply source target deeds := by
  induction h with
  | base => exact ⟨ho, .refl _, source, hsource, .nil _ _⟩
  | @work s name deeds command _ hsubject hworks ih =>
      obtain ⟨hs, hsupply, target, htarget, haccount⟩ := ih
      subst hsubject
      obtain ⟨next, hnext, hturns⟩ := Deed.exists_turns (d := ⟨s, command⟩) hs hworks htarget
      exact ⟨hs.step command, hturns.remains.trans hsupply, next, hnext,
        haccount.snoc (ho.sound hsource) hsupply hturns⟩
  | @elsewhere s name deeds command _ hsubject ih =>
      obtain ⟨hs, hsupply, target, htarget, haccount⟩ := ih
      exact ⟨hs.step command, (hs.remains_step command).trans hsupply, target,
        (revision?_step_of_ne s hsubject).trans htarget, haccount⟩
  | @fork s name deeds rev _ ih =>
      obtain ⟨hs, hsupply, target, htarget, haccount⟩ := ih
      -- The fork has the same table, which is all that is accounted for.
      exact ⟨hs.step _, (hs.remains_step _).trans hsupply, target.fork,
        revision?_step_fork rev htarget, ⟨haccount.contains_iff, haccount.le_of_minted,
          haccount.state?_eq, haccount.stamp_le⟩⟩

theorem Derived.run (h : Derived origin base s name deeds) {commands : List Command}
    (hworks : ∀ command ∈ commands, command.subject = name → command.works = true) :
    Derived origin base (s.run commands).2 name
      (deeds ++ (s.deeds commands).filter (·.command.subject == name)) := by
  induction commands generalizing s deeds with
  | nil => simpa [Session.run, Session.deeds] using h
  | cons command commands ih =>
      have hrest : ∀ other ∈ commands, other.subject = name → other.works = true :=
        fun other hother => hworks other (List.mem_cons_of_mem _ hother)
      rw [run_cons, Session.deeds, List.filter_cons]
      dsimp only
      by_cases hsubject : command.subject = name
      · rw [if_pos (beq_iff_eq.mpr hsubject), ← List.singleton_append, ← List.append_assoc]
        exact ih (h.work hsubject (hworks command List.mem_cons_self hsubject)) hrest
      · rw [if_neg (mt beq_iff_eq.mp hsubject)]
        exact ih (h.elsewhere hsubject) hrest

/-- The difference between a revision and one that comes from it says what has been done in between:
an object is modified if it was rewritten or stands elsewhere, even if it has been set back. -/
theorem Reachable.difference_recounts (h : origin.Reachable)
    (hsource : origin.revision? base = some source) (hderived : Derived origin base s name deeds) :
    ∃ target, s.revision? name = some target ∧ Difference.Recounts source target deeds := by
  obtain ⟨hs, -, target, htarget, haccount⟩ := hderived.exists_account h hsource
  exact ⟨target, htarget, haccount.recounts (h.sound hsource) (hs.sound htarget).wellFormed⟩

def nestedFinal : Session := (nested.run [.finalize "a"]).2

/-- Work in which a payload is changed and set back, another is written again as it is, and one
command fails. -/
def setBack : List Command :=
  [.write "b" [(⟨3⟩, .text { color := 1 })], .write "b" [(⟨3⟩, .text {})],
    .write "b" [(⟨4⟩, .text {})], .delete "b" ⟨9⟩, .add "b" (.blank .text) .top, .finalize "a",
    .delete "b" ⟨2⟩]

theorem difference_recounts_setBack :
    ∃ source target, nestedFinal.revision? "a" = some source ∧ source.transient = false ∧
      ((nestedFinal.step (.fork "b" "a")).2.run setBack).2.revision? "b" = some target ∧
        Difference.between source target = ⟨[⟨5⟩], [⟨2⟩], [⟨3⟩]⟩ ∧
          Difference.Recounts source target
            (((nestedFinal.step (.fork "b" "a")).2.deeds setBack).filter
              (·.command.subject == "b")) := by
  have hforked : Derived nestedFinal "a" (nestedFinal.step (.fork "b" "a")).2 "b" [] :=
    Derived.base.fork "b"
  have hreachable : nestedFinal.Reachable := reachable_nested.run _
  obtain ⟨target, htarget, h⟩ := hreachable.difference_recounts
    (show nestedFinal.revision? "a" = some _ from rfl) (hforked.run (show ∀ command ∈ setBack,
      command.subject = "b" → command.works = true by decide))
  have hrun : ((nestedFinal.step (.fork "b" "a")).2.run setBack).2.revision? "b" = some _ := rfl
  cases hrun.symm.trans htarget
  exact ⟨_, _, rfl, rfl, rfl, rfl, h⟩

end Session

end Schematic
