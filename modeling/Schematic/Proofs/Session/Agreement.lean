import Schematic.Proofs.Attribute.Bulk
import Schematic.Proofs.Attribute.Consensus
import Schematic.Proofs.Attribute.Trait
import Schematic.Proofs.Session.Effects
import Schematic.Proofs.Store.Instance

namespace Schematic

theorem head?_filterMap_eq_some_iff {α β : Type} [DecidableEq α] {f : α → Option β} {xs : List α}
    {b : β} (hmem : ∀ a b, f a = some b → a ∈ xs) :
    (xs.filterMap f).head? = some b ↔
      ∃ a, f a = some b ∧ ∀ a' b', f a' = some b' → xs.idxOf a ≤ xs.idxOf a' := by
  rw [List.head?_filterMap, List.findSome?_eq_some_iff]
  constructor
  · rintro ⟨front, a, back, rfl, ha, hfront⟩
    have hnone : ∀ a' b', f a' = some b' → a' ∉ front := by
      intro a' b' ha' hmem
      rw [hfront a' hmem] at ha'
      cases ha'
    refine ⟨a, ha, fun a' b' ha' => ?_⟩
    rw [List.idxOf_append_of_notMem (hnone a b ha), List.idxOf_append_of_notMem (hnone a' b' ha'),
      List.idxOf_cons_self]
    exact Nat.add_le_add_left (Nat.zero_le _) _
  · rintro ⟨a, ha, hleast⟩
    obtain ⟨front, back, rfl, hfront⟩ := List.eq_append_cons_of_mem (hmem a b ha)
    refine ⟨front, a, back, rfl, ha, fun a' ha' => Option.eq_none_iff_forall_ne_some.mpr ?_⟩
    intro b' hb'
    have hle := hleast a' b' hb'
    rw [List.idxOf_append_of_notMem hfront, List.idxOf_append_of_mem ha'] at hle
    have hlt := List.idxOf_lt_length_of_mem ha'
    omega

namespace Revision

/-- The object is selected, is in the revision, and has this value in the field. -/
def Shows (r : Revision) (sel : Selection) (t : Trait) (id : ObjectId) (x : t.Value) : Prop :=
  sel.contains id = true ∧ ∃ payload, r.payload? id = some payload ∧ t.Has payload x

/-- The value of the first object that shows one. -/
def ShowsFirst (r : Revision) (sel : Selection) (t : Trait) (x : t.Value) : Prop :=
  ∃ id, r.Shows sel t id x ∧
    ∀ other y, r.Shows sel t other y → r.objects.idxOf id ≤ r.objects.idxOf other

def shown (r : Revision) (sel : Selection) (t : Trait) : List t.Value :=
  (r.selectedPayloads sel).filterMap t.read?

variable {r : Revision} {sel sel' : Selection} {t : Trait} {id : ObjectId} {x : t.Value}

def show? (r : Revision) (sel : Selection) (t : Trait) (id : ObjectId) : Option t.Value :=
  if sel.contains id then (r.payload? id).bind t.read? else none

theorem show?_eq_some_iff : r.show? sel t id = some x ↔ r.Shows sel t id x := by
  simp [show?, Shows, Option.bind_eq_some_iff, Trait.read?_eq_some_iff]

theorem shown_eq (r : Revision) (sel : Selection) (t : Trait) :
    r.shown sel t = r.objects.filterMap (r.show? sel t) := by
  rw [shown, selectedPayloads, selected, List.filterMap_filterMap, List.filterMap_filter]
  rfl

theorem mem_objects_of_shows (wf : r.table.WellFormed) (h : r.Shows sel t id x) :
    id ∈ r.objects := by
  obtain ⟨-, payload, hpayload, -⟩ := h
  exact wf.mem_preorder.mpr (contains_of_payload?_eq_some hpayload)

theorem mem_shown_iff (wf : r.table.WellFormed) :
    x ∈ r.shown sel t ↔ ∃ id, r.Shows sel t id x := by
  simp only [shown_eq, List.mem_filterMap, show?_eq_some_iff]
  exact exists_congr fun id => and_iff_right_of_imp (mem_objects_of_shows wf)

theorem exists_shows_iff : (∃ x, r.Shows sel t id x) ↔
    sel.contains id = true ∧ ∃ payload, r.payload? id = some payload ∧ payload.kind ∈ t.kinds := by
  simp only [Shows, exists_and_left, ← Trait.exists_has_iff]
  rw [exists_comm]
  simp only [exists_and_left]

theorem consensus_congr (h : ∀ id payload, r.payload? id = some payload →
    payload.kind ∈ t.kinds → sel.contains id = sel'.contains id) :
    r.consensus sel t.read? = r.consensus sel' t.read? := by
  change Consensus.ofList (r.shown sel t) = Consensus.ofList (r.shown sel' t)
  rw [shown_eq, shown_eq]
  congr 1
  refine List.filterMap_congr fun id _ => ?_
  unfold show?
  cases hpayload : r.payload? id with
  | none => simp
  | some payload =>
      rw [Option.bind_some]
      cases hread : t.read? payload with
      | none => simp
      | some x => rw [h id payload hpayload (Trait.has_of_read? hread).kind_mem]

theorem same_self_of_shows {supply : Supply} (hr : r.table.Sound supply) (h : r.Shows sel t id x) :
    same x x = true := by
  obtain ⟨-, payload, hpayload, hx⟩ := h
  obtain ⟨entry, hentry, rfl⟩ := payload?_eq_some_iff.mp hpayload
  exact hx.same_self (Payload.same_self_of_accept (hr.issued hentry).accept_eq)

theorem head?_shown_eq_some_iff (wf : r.table.WellFormed) :
    (r.shown sel t).head? = some x ↔ r.ShowsFirst sel t x := by
  rw [shown_eq, head?_filterMap_eq_some_iff]
  · simp only [show?_eq_some_iff]
    rfl
  · exact fun id y hy => mem_objects_of_shows wf (show?_eq_some_iff.mp hy)

theorem shows_union :
    r.Shows (sel.union sel') t id x ↔ r.Shows sel t id x ∨ r.Shows sel' t id x := by
  rw [Shows, Shows, Shows, Selection.contains_union, Bool.or_eq_true, or_and_right]

/-- What is answered for selections of objects, when one asks what they have in common. -/
structure ConsensusLaws (r : Revision) (t : Trait) : Prop where
  notApplicable_iff : ∀ sel, r.consensus sel t.read? = .notApplicable ↔
    ∀ id payload, sel.contains id = true → r.payload? id = some payload → payload.kind ∉ t.kinds
  consistent_iff : ∀ sel value, r.consensus sel t.read? = .consistent value ↔
    r.ShowsFirst sel t value ∧
      ∀ id x id' x', r.Shows sel t id x → r.Shows sel t id' x' → same x x' = true
  inconsistent_iff : ∀ sel, r.consensus sel t.read? = .inconsistent ↔
    ∃ id x id' x', r.Shows sel t id x ∧ r.Shows sel t id' x' ∧ same x x' = false
  congr : ∀ sel sel', (∀ id payload, r.payload? id = some payload → payload.kind ∈ t.kinds →
    sel.contains id = sel'.contains id) →
      r.consensus sel t.read? = r.consensus sel' t.read?
  perm : ∀ sel values, values.Perm (r.shown sel t) →
    same (Consensus.ofList values) (r.consensus sel t.read?) = true
  single : ∀ sel id x, r.Shows sel t id x → (∀ other y, r.Shows sel t other y → other = id) →
    r.consensus sel t.read? = .consistent x
  union : ∀ sel sel', same (r.consensus (sel.union sel') t.read?)
    ((r.consensus sel t.read?).join (r.consensus sel' t.read?)) = true

theorem consensusLaws {supply : Supply} (hr : r.table.Sound supply) (t : Trait) :
    r.ConsensusLaws t := by
  have hmem : ∀ {sel : Selection} {x : t.Value}, x ∈ r.shown sel t ↔ ∃ id, r.Shows sel t id x :=
    mem_shown_iff hr.wellFormed
  have hself : ∀ sel, ∀ x ∈ r.shown sel t, same x x = true := by
    intro sel x hx
    obtain ⟨id, hid⟩ := hmem.mp hx
    exact same_self_of_shows hr hid
  -- Up to sameness a consensus is settled by the values that are shown, whatever their order.
  have hreflects : ∀ sel, (r.consensus sel t.read?).Reflects fun x => ∃ id, r.Shows sel t id x :=
    fun sel => (Consensus.reflects_ofList (hself sel)).congr fun x => hmem
  have hconsistent : ∀ sel value, r.consensus sel t.read? = .consistent value ↔
      r.ShowsFirst sel t value ∧
        ∀ id x id' x', r.Shows sel t id x → r.Shows sel t id' x' → same x x' = true := by
    intro sel value
    rw [← head?_shown_eq_some_iff hr.wellFormed]
    refine (Consensus.ofList_eq_consistent_iff (hself sel)).trans (and_congr_right fun _ => ?_)
    constructor
    · exact fun h id x id' x' hx hx' => h x (hmem.mpr ⟨id, hx⟩) x' (hmem.mpr ⟨id', hx'⟩)
    · intro h x hx x' hx'
      obtain ⟨id, hid⟩ := hmem.mp hx
      obtain ⟨id', hid'⟩ := hmem.mp hx'
      exact h id x id' x' hid hid'
  refine {
    notApplicable_iff := fun sel => ?_
    consistent_iff := hconsistent
    inconsistent_iff := fun sel => ?_
    congr := fun sel sel' h => consensus_congr h
    perm := fun sel values hperm => ?_
    single := fun sel id x hx hone => ?_
    union := fun sel sel' => ?_ }
  · rw [(hreflects sel).eq_notApplicable_iff]
    constructor
    · intro h id payload hsel hpayload hkind
      obtain ⟨x, hx⟩ := exists_shows_iff.mpr ⟨hsel, payload, hpayload, hkind⟩
      exact h x ⟨id, hx⟩
    · rintro h x ⟨id, hsel, payload, hpayload, hx⟩
      exact h id payload hsel hpayload hx.kind_mem
  · rw [(hreflects sel).eq_inconsistent_iff]
    constructor
    · rintro ⟨x, x', ⟨id, hx⟩, ⟨id', hx'⟩, hdiffers⟩
      exact ⟨id, x, id', x', hx, hx', hdiffers⟩
    · rintro ⟨id, x, id', x', hx, hx', hdiffers⟩
      exact ⟨x, x', ⟨id, hx⟩, ⟨id', hx'⟩, hdiffers⟩
  · refine Consensus.same_of_reflects ?_ (hreflects sel)
    exact (Consensus.reflects_ofList fun x hx => hself sel x (hperm.mem_iff.mp hx)).congr
      fun x => hperm.mem_iff.trans hmem
  · -- The value is the only one that is shown, and with a regular payload the same as itself.
    have hvalue : ∀ other y, r.Shows sel t other y → other = id ∧ y = x := by
      intro other y hy
      obtain rfl := hone other y hy
      have hxy := (show?_eq_some_iff.mpr hy).symm.trans (show?_eq_some_iff.mpr hx)
      exact ⟨rfl, Option.some.inj hxy⟩
    refine (hconsistent sel x).mpr ⟨⟨id, hx, fun other y hy => ?_⟩, fun a y b z hy hz => ?_⟩
    · rw [(hvalue other y hy).1]
    · rw [(hvalue a y hy).2, (hvalue b z hz).2]
      exact same_self_of_shows hr hx
  · refine Consensus.same_of_reflects (hreflects (sel.union sel')) ?_
    refine ((hreflects sel).join (hreflects sel')).congr fun x => ?_
    simp only [shows_union, exists_or]

end Revision

namespace Session

/-- In every session that can be reached a field is answered by what the selected objects have in
common: those of the kinds that have it, each with the value under the paths of the field. Among
numbers that nobody has checked there may be a NaN, with which no other number agrees in any
order. -/
theorem consensus_outcome :
    (∀ (t : Trait) (payload : Payload),
      ((t.read? payload).isSome = true ↔ payload.kind ∈ t.kinds) ∧
        ∀ x, t.read? payload = some x ↔ t.Has payload x) ∧
    (∀ (s : Session) (name : String) (r : Revision), s.Reachable → s.revision? name = some r →
      ∀ t, r.ConsensusLaws t) ∧
    ∀ values other : List Binary64, 2 ≤ values.length → (∃ x ∈ values, x.isNaN = true) →
      other.Perm values → Consensus.ofList other = .inconsistent := by
  refine ⟨fun t payload => ⟨Trait.isSome_read?_iff, fun x => Trait.read?_eq_some_iff⟩,
    fun s name r h hr t => Revision.consensusLaws (h.sound hr) t, ?_⟩
  rintro values other hlength ⟨x, hx, hnan⟩ hperm
  refine Consensus.ofList_eq_inconsistent (hperm.length_eq ▸ hlength) (hperm.mem_iff.mpr hx) ?_
  refine eq_false_of_ne_true fun hself => ?_
  rw [(Binary64.same_self_iff x).mp hself] at hnan
  cases hnan

def turned : Session := (boxed.step (.add "b" (.text { angle := 90 }) .top)).2

theorem consensus_outcome_boxed :
    ∃ r, turned.revision? "b" = some r ∧ r.ConsensusLaws (.changeable .pos) ∧
      r.ShowsFirst (.ofList [⟨9⟩, ⟨1⟩, ⟨0⟩]) (.changeable .pos) (⟨.zero, .zero⟩ : Point) ∧
      r.ShowsFirst (.ofList [⟨9⟩, ⟨1⟩, ⟨3⟩]) .angle (90 : Int32) ∧
      (∃ id x id' x', r.Shows (.ofList [⟨3⟩, ⟨0⟩]) .angle id x ∧
        r.Shows (.ofList [⟨3⟩, ⟨0⟩]) .angle id' x' ∧ same x x' = false) ∧
      (∀ id payload, (Selection.ofList [⟨9⟩, ⟨1⟩]).contains id = true →
        r.payload? id = some payload → payload.kind ∉ Trait.angle.kinds) ∧
      Consensus.ofList [⟨0x7FF8000000000000⟩, Binary64.zero] = .inconsistent := by
  have hr : turned.revision? "b" = some _ := rfl
  have hlaws := consensus_outcome.2.1 turned "b" _ (reachable_boxed.step _) hr
  refine ⟨_, hr, hlaws _, ?_, ?_, ?_, ?_, ?_⟩
  · exact (((hlaws (.changeable .pos)).consistent_iff _ _).mp rfl).1
  · exact (((hlaws .angle).consistent_iff _ _).mp rfl).1
  · exact ((hlaws .angle).inconsistent_iff _).mp rfl
  · exact ((hlaws .angle).notApplicable_iff _).mp rfl
  · exact consensus_outcome.2.2 [.zero, ⟨0x7FF8000000000000⟩] _ (Nat.le_refl 2)
      ⟨⟨0x7FF8000000000000⟩, by simp, by decide⟩ (.swap _ _ _)

end Session

end Schematic
