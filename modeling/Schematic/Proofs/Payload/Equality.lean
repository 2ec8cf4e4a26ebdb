import Schematic.Payload.Same

namespace Schematic

/-- Sameness as an equivalence, but for values that are not the same as themselves. -/
class LawfulSame (α : Type) [SameValue α] : Prop where
  symm : ∀ {a b : α}, same a b = true → same b a = true
  trans : ∀ {a b c : α}, same a b = true → same b c = true → same a c = true

namespace Binary64

theorem same_eq_true_iff {x y : Binary64} :
    x.same y = true ↔
      x.isNaN = false ∧ y.isNaN = false ∧ (x = y ∨ x.isZero = true ∧ y.isZero = true) := by
  simp [Binary64.same, and_assoc]

end Binary64

instance : LawfulSame Binary64 where
  symm := by
    intro a b h
    exact (Binary64.same_comm a b).symm.trans h
  trans := by
    intro a b c hab hbc
    obtain ⟨ha, hb, hab⟩ := Binary64.same_eq_true_iff.mp hab
    obtain ⟨-, hc, hbc⟩ := Binary64.same_eq_true_iff.mp hbc
    refine Binary64.same_eq_true_iff.mpr ⟨ha, hc, ?_⟩
    rcases hab with rfl | ⟨haz, hbz⟩
    · exact hbc
    · rcases hbc with rfl | ⟨-, hcz⟩
      · exact .inr ⟨haz, hbz⟩
      · exact .inr ⟨haz, hcz⟩

theorem LawfulSame.of_beq {α : Type} [BEq α] [LawfulBEq α] [SameValue α]
    (h : ∀ a b : α, same a b = (a == b)) : LawfulSame α where
  symm hab := by
    rw [h, beq_iff_eq] at hab ⊢
    exact hab.symm
  trans hab hbc := by
    rw [h, beq_iff_eq] at hab hbc ⊢
    exact hab.trans hbc

instance : LawfulSame Int32 := .of_beq fun _ _ => rfl

instance : LawfulSame Bool := .of_beq fun _ _ => rfl

instance : LawfulSame String := .of_beq fun _ _ => rfl

instance : LawfulSame Resource := .of_beq fun _ _ => rfl

/-! ### Values made of parts -/

instance {α β : Type} [SameValue α] [SameValue β] : SameValue (α × β) :=
  ⟨fun a b => same a.1 b.1 && same a.2 b.2⟩

instance {α β : Type} [SameValue α] [SameValue β] : SameValue (α ⊕ β) where
  same
    | .inl a, .inl b => same a b
    | .inr a, .inr b => same a b
    | _, _ => false

instance {α : Type} [SameValue α] : SameValue (Option α) where
  same
    | some a, some b => same a b
    | none, none => true
    | _, _ => false

instance {α β : Type} [SameValue α] [SameValue β] [LawfulSame α] [LawfulSame β] :
    LawfulSame (α × β) where
  symm h := by
    simp only [same, Bool.and_eq_true] at h ⊢
    exact ⟨LawfulSame.symm h.1, LawfulSame.symm h.2⟩
  trans h h' := by
    simp only [same, Bool.and_eq_true] at h h' ⊢
    exact ⟨LawfulSame.trans h.1 h'.1, LawfulSame.trans h.2 h'.2⟩

instance {α β : Type} [SameValue α] [SameValue β] [LawfulSame α] [LawfulSame β] :
    LawfulSame (α ⊕ β) where
  symm := by
    rintro (a | a) (b | b) h
    · exact LawfulSame.symm (α := α) h
    · cases h
    · cases h
    · exact LawfulSame.symm (α := β) h
  trans := by
    rintro (a | a) (b | b) (c | c) h h'
    any_goals cases h
    any_goals cases h'
    · exact LawfulSame.trans (α := α) h h'
    · exact LawfulSame.trans (α := β) h h'

instance {α : Type} [SameValue α] [LawfulSame α] : LawfulSame (Option α) where
  symm := by
    rintro (_ | a) (_ | b) h
    · rfl
    · cases h
    · cases h
    · exact LawfulSame.symm (α := α) h
  trans := by
    rintro (_ | a) (_ | b) (_ | c) h h'
    any_goals cases h
    any_goals cases h'
    · rfl
    · exact LawfulSame.trans (α := α) h h'

theorem LawfulSame.of_image {α β : Type} [SameValue α] [SameValue β] [LawfulSame β] (f : α → β)
    (h : ∀ a b, same a b = same (f a) (f b)) : LawfulSame α where
  symm hab := by
    rw [h] at hab ⊢
    exact LawfulSame.symm hab
  trans hab hbc := by
    rw [h] at hab hbc ⊢
    exact LawfulSame.trans hab hbc

instance : LawfulSame Point := .of_image (fun a => (a.x, a.y)) fun _ _ => rfl

instance : LawfulSame Stroke :=
  .of_image (fun a => ((((a.width, a.cap), a.dash), a.dashLength), a.dashSpace)) fun _ _ => rfl

instance : LawfulSame Fill :=
  .of_image (fun a => (((((a.style, a.width), a.angle0), a.pitch0), a.angle1), a.pitch1))
    fun _ _ => rfl

instance : LawfulSame Arc :=
  .of_image (fun a => (((((a.pos, a.radius), a.startAngle), a.sweepAngle), a.color), a.line))
    fun _ _ => rfl

instance : LawfulSame Box :=
  .of_image (fun a => ((((a.pos, a.size), a.color), a.line), a.fill)) fun _ _ => rfl

instance : LawfulSame Circle :=
  .of_image (fun a => ((((a.pos, a.radius), a.color), a.line), a.fill)) fun _ _ => rfl

instance : LawfulSame Component :=
  .of_image (fun a => ((((a.pos, a.selectable), a.angle), a.mirror), a.symbol)) fun _ _ => rfl

instance : LawfulSame Line :=
  .of_image (fun a => (((a.pos, a.size), a.color), a.line)) fun _ _ => rfl

instance : LawfulSame Net :=
  .of_image (fun a => (((((a.pos, a.size), a.color), a.isBus), a.isPin), a.isInverted))
    fun _ _ => rfl

instance : LawfulSame Path :=
  .of_image (fun a => (((a.commands, a.color), a.line), a.fill)) fun _ _ => rfl

instance : LawfulSame Picture :=
  .of_image (fun a => ((((a.pos, a.size), a.angle), a.mirror), a.pixmap)) fun _ _ => rfl

instance : LawfulSame Text :=
  .of_image (fun a => (((((((a.pos, a.color), a.size), a.visible), a.shown), a.angle),
    a.alignment), a.text)) fun _ _ => rfl

/-- A payload as an element of the sum of all kinds. -/
def Payload.toSum :
    Payload → Arc ⊕ Box ⊕ Circle ⊕ Component ⊕ Line ⊕ Net ⊕ Path ⊕ Picture ⊕ Text
  | arc a => .inl a
  | box a => .inr (.inl a)
  | circle a => .inr (.inr (.inl a))
  | component a => .inr (.inr (.inr (.inl a)))
  | line a => .inr (.inr (.inr (.inr (.inl a))))
  | net a => .inr (.inr (.inr (.inr (.inr (.inl a)))))
  | path a => .inr (.inr (.inr (.inr (.inr (.inr (.inl a))))))
  | picture a => .inr (.inr (.inr (.inr (.inr (.inr (.inr (.inl a)))))))
  | text a => .inr (.inr (.inr (.inr (.inr (.inr (.inr (.inr a)))))))

instance : LawfulSame Payload :=
  .of_image Payload.toSum fun a b => by cases a <;> cases b <;> rfl

end Schematic
