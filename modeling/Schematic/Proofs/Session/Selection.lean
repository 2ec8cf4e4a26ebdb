import Schematic.Proofs.Session.Reachable
import Schematic.Proofs.Store.Expression

namespace Schematic

/-- A revision that a session comes to hold. -/
def Revision.Reachable (r : Revision) : Prop :=
  ∃ (s : Session) (name : String), s.Reachable ∧ s.revision? name = some r

theorem Revision.Reachable.wellFormed {r : Revision} (h : r.Reachable) : r.table.WellFormed := by
  obtain ⟨s, name, hs, hr⟩ := h
  exact (hs.sound hr).wellFormed

namespace Selection.Expression

def Reachable (e : Expression) : Prop := ∀ r ∈ e.revisions, r.Reachable

variable {e f : Expression}

theorem Reachable.represents (h : e.Reachable) : e.eval.Represents e.holds :=
  represents_eval fun r hr => (h r hr).wellFormed

theorem Reachable.eq_iff_holds (he : e.Reachable) (hf : f.Reachable) :
    e.eval.eq f.eval = true ↔ ∀ x, e.holds x = f.holds x := by
  rw [eq_iff]
  constructor
  · intro h x
    rw [← he.represents.contains_eq, h, hf.represents.contains_eq]
  · intro h
    refine ext fun x => ?_
    rw [he.represents.contains_eq, h, hf.represents.contains_eq]

end Selection.Expression

namespace Session

/-- However selections are put together, they are the sets of their members, and a revision finds in
a combination of selections the objects that the combination is meant to have. -/
theorem selection_outcome :
    (∀ e : Selection.Expression, e.Reachable → e.eval.Represents e.holds) ∧
    (∀ e f : Selection.Expression, e.Reachable → f.Reachable →
      (e.eval.eq f.eval = true ↔ e.eval.toList = f.eval.toList) ∧
        (e.eval.eq f.eval = true ↔ ∀ x, e.holds x = f.holds x)) ∧
    ∀ r : Revision, r.Reachable → r.SelectionLaws :=
  ⟨fun _ h => h.represents, fun _ _ he hf => ⟨Selection.eq_iff_toList_eq, he.eq_iff_holds hf⟩,
    fun _ h => Revision.selectionLaws h.wellFormed⟩

theorem selection_outcome_nested :
    ∃ r, nested.revision? "a" = some r ∧ r.Reachable ∧
      ∃ e f : Selection.Expression,
        e = .allExcept r (.union (.object ⟨1⟩) (.ofList [⟨9⟩, ⟨2⟩, ⟨9⟩])) ∧
        f = .including (.attachedTo r none) ⟨3⟩ ∧
        e.eval.toList = [⟨0⟩, ⟨3⟩, ⟨4⟩] ∧ e.eval.Represents e.holds ∧
        e.eval.eq f.eval = true ∧ (∀ x, e.holds x = f.holds x) ∧
        r.selected (.ofList [⟨9⟩, ⟨3⟩, ⟨1⟩]) = [⟨1⟩, ⟨3⟩] ∧ r.SelectionLaws := by
  have hr : nested.revision? "a" = some _ := rfl
  have hreachable : Revision.Reachable _ := ⟨nested, "a", reachable_nested, hr⟩
  obtain ⟨hrepresents, heq, hlaws⟩ := selection_outcome
  have he : Selection.Expression.Reachable
      (.allExcept _ (.union (.object ⟨1⟩) (.ofList [⟨9⟩, ⟨2⟩, ⟨9⟩]))) :=
    List.forall_mem_singleton.mpr hreachable
  have hf : Selection.Expression.Reachable (.including (.attachedTo _ none) ⟨3⟩) :=
    List.forall_mem_singleton.mpr hreachable
  obtain ⟨hlist, hholds⟩ := heq _ _ he hf
  have hsame := hlist.mpr rfl
  exact ⟨_, hr, hreachable, _, _, rfl, rfl, rfl, hrepresents _ he, hsame, hholds.mp hsame, rfl,
    hlaws _ hreachable⟩

end Session

end Schematic
