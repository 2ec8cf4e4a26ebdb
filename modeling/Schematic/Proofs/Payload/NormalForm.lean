import Mathlib.Data.List.Forall2
import Schematic.Proofs.Payload.Validity

/-!
`Payload.Idle` says which fields the styles of a payload leave without effect. The normal form has
zero in these and nothing else is new in it (`forall₂_settles`), so two payloads have the same
normal form just when they have the same in all fields that are not idle.
-/

namespace Schematic

/-! ### Fields by their paths -/

def Field.lookup (fields : List Field) (path : String) : Option FieldValue :=
  (fields.find? (·.path == path)).map Field.value

instance : SameValue FieldValue where
  same
    | .number x, .number y => same x y
    | .integer m, .integer n => same m n
    | .flag b, .flag c => same b c
    | .text s, .text t => same s t
    | .resource p, .resource q => same p q
    | _, _ => false

namespace Field

variable {fields fields' : List Field} {path : String}

theorem lookup_cons (field : Field) (fields : List Field) (path : String) :
    lookup (field :: fields) path =
      if field.path = path then some field.value else lookup fields path := by
  unfold lookup
  rw [List.find?_cons]
  by_cases h : field.path = path
  · simp [h]
  · simp [h, beq_eq_false_iff_ne.mpr h]

theorem lookup_eq_none (h : path ∉ fields.map Field.path) : lookup fields path = none := by
  rw [lookup, Option.map_eq_none_iff, List.find?_eq_none]
  intro field hfield heq
  exact h (List.mem_map.mpr ⟨field, hfield, beq_iff_eq.mp heq⟩)

theorem lookup_eq_of_mem {field : Field} (hfield : field ∈ fields)
    (hnodup : (fields.map Field.path).Nodup) : lookup fields field.path = some field.value := by
  induction fields with
  | nil => cases hfield
  | cons first fields ih =>
      obtain ⟨hfirst, hnodup⟩ := List.nodup_cons.mp hnodup
      rw [lookup_cons]
      rcases List.mem_cons.mp hfield with rfl | hfield
      · exact if_pos rfl
      · have hne : first.path ≠ field.path := fun heq =>
          hfirst (List.mem_map.mpr ⟨field, hfield, heq.symm⟩)
        rw [if_neg hne, ih hfield hnodup]

def Matches (field field' : Field) : Prop :=
  field.path = field'.path ∧ same field.value field'.value = true

theorem forall₂_matches_iff (hpaths : fields.map Field.path = fields'.map Field.path)
    (hnodup : (fields.map Field.path).Nodup) :
    List.Forall₂ Matches fields fields' ↔
      ∀ path, same (lookup fields path) (lookup fields' path) = true := by
  induction fields generalizing fields' with
  | nil =>
      obtain rfl : fields' = [] := List.map_eq_nil_iff.mp hpaths.symm
      exact iff_of_true .nil fun _ => rfl
  | cons field fields ih =>
      obtain ⟨field', rest, rfl, hpath, hrest⟩ := List.map_eq_cons_iff.mp hpaths.symm
      obtain ⟨hfirst, hnodup⟩ := List.nodup_cons.mp hnodup
      rw [List.forall₂_cons, ih hrest.symm hnodup, Matches]
      simp only [lookup_cons, hpath]
      constructor
      · rintro ⟨⟨-, hsame⟩, hall⟩ path
        split
        · exact hsame
        · exact hall path
      · intro hall
        have hsame := hall field.path
        rw [if_pos rfl, if_pos rfl] at hsame
        refine ⟨⟨trivial, hsame⟩, fun path => ?_⟩
        have hone := hall path
        split at hone
        · rename_i heq
          rw [← heq, lookup_eq_none hfirst, lookup_eq_none (hrest ▸ hfirst)]
          rfl
        · exact hone

end Field

namespace Payload

variable {a b payload : Payload} {path : String}

def value? (payload : Payload) (path : String) : Option FieldValue :=
  Field.lookup payload.fields path

theorem paths_eq (h : a.kind = b.kind) : a.fields.map Field.path = b.fields.map Field.path := by
  cases a <;> cases b <;> first | rfl | cases h

theorem nodup_paths (payload : Payload) : (payload.fields.map Field.path).Nodup := by
  cases payload <;> simp [fields, posFields, sizeFields, Stroke.fields, Fill.fields]

theorem value?_eq_of_mem {field : Field} (h : field ∈ payload.fields) :
    payload.value? field.path = some field.value :=
  Field.lookup_eq_of_mem h (nodup_paths payload)

theorem same_iff_forall₂ :
    same a b = true ↔ a.kind = b.kind ∧ List.Forall₂ Field.Matches a.fields b.fields := by
  cases a <;> cases b <;>
    simp [same, sameAs, kind, fields, posFields, sizeFields, Stroke.fields, Fill.fields,
      Field.Matches, and_assoc]

theorem same_iff :
    same a b = true ↔
      a.kind = b.kind ∧ ∀ path, same (a.value? path) (b.value? path) = true := by
  rw [same_iff_forall₂]
  exact and_congr_right fun hkind =>
    Field.forall₂_matches_iff (paths_eq hkind) (nodup_paths a)

/-! ### Idle fields -/

/-- The fields of a stroke that are without effect where its dash has this style. -/
def IdleWithDash (dash : Int32) (path : String) : Prop :=
  path = "line.dash_length" ∧ (dash = 0 ∨ dash = 1) ∨ path = "line.dash_space" ∧ dash = 0

/-- The fields of a fill that are without effect where it has this style. -/
def IdleWithFill (style : Int32) (path : String) : Prop :=
  path ∈ ["fill.width", "fill.angle0", "fill.pitch0"] ∧ style ≠ 2 ∧ style ≠ 3 ∨
    path ∈ ["fill.angle1", "fill.pitch1"] ∧ style ≠ 2

/-- A style of the payload leaves the field without effect. -/
def Idle (payload : Payload) (path : String) : Prop :=
  (∃ dash, payload.value? "line.dash_style" = some (.integer dash) ∧ IdleWithDash dash path) ∨
    ∃ style, payload.value? "fill.type" = some (.integer style) ∧ IdleWithFill style path

/-- What the normal form has in an idle field: an angle of zero, or the number zero. -/
def idleValue (path : String) : FieldValue :=
  if path ∈ ["fill.angle0", "fill.angle1"] then .integer 0 else .number .zero

/-- The payloads are of one kind and have the same in every field that is not idle. -/
def LooksLike (a b : Payload) : Prop :=
  a.kind = b.kind ∧ ∀ path, ¬ a.Idle path → same (a.value? path) (b.value? path) = true

/-- A field of the payload, and the field as it stands in the normal form. -/
def Settles (payload : Payload) (old new : Field) : Prop :=
  new.path = old.path ∧ (payload.Idle old.path → new.value = idleValue old.path) ∧
    (¬ payload.Idle old.path → new.value = old.value)

def styledPaths : List String :=
  ["line.dash_length", "line.dash_space", "fill.width", "fill.angle0", "fill.pitch0", "fill.angle1",
    "fill.pitch1"]

@[simp] theorem mem_styledPaths : path ∈ styledPaths ↔
    path = "line.dash_length" ∨ path = "line.dash_space" ∨ path = "fill.width" ∨
      path = "fill.angle0" ∨ path = "fill.pitch0" ∨ path = "fill.angle1" ∨
        path = "fill.pitch1" := by
  simp [styledPaths]

theorem not_idle_of_notMem (h : path ∉ styledPaths) : ¬ payload.Idle path := by
  simp only [mem_styledPaths, not_or] at h
  simp [Idle, IdleWithDash, IdleWithFill, h]

theorem Settles.refl {field : Field} (h : ¬ payload.Idle field.path) :
    payload.Settles field field :=
  ⟨rfl, fun hidle => absurd hidle h, fun _ => rfl⟩

theorem forall₂_settles_self {fields : List Field}
    (h : ∀ field ∈ fields, field.path ∉ styledPaths) :
    List.Forall₂ payload.Settles fields fields :=
  List.forall₂_same.mpr fun field hfield => .refl (not_idle_of_notMem (h field hfield))

theorem Settles.of_uses {old new : Field} {uses : Bool}
    (huses : uses = true ↔ ¬ payload.Idle old.path) (hpath : new.path = old.path)
    (hvalue : new.value = if uses then old.value else idleValue old.path) :
    payload.Settles old new := by
  refine ⟨hpath, fun hidle => ?_, fun hidle => ?_⟩
  · rw [hvalue, if_neg fun h => huses.mp h hidle]
  · rw [hvalue, if_pos (huses.mpr hidle)]

section Styles

variable {line : Stroke} {fill : Fill}

theorem idle_dashLength_iff (h : payload.value? "line.dash_style" = some (.integer line.dash)) :
    payload.Idle "line.dash_length" ↔ line.dash = 0 ∨ line.dash = 1 := by
  simp [Idle, IdleWithDash, IdleWithFill, h]

theorem idle_dashSpace_iff (h : payload.value? "line.dash_style" = some (.integer line.dash)) :
    payload.Idle "line.dash_space" ↔ line.dash = 0 := by
  simp [Idle, IdleWithDash, IdleWithFill, h]

theorem forall₂_settles_stroke
    (h : payload.value? "line.dash_style" = some (.integer line.dash)) :
    List.Forall₂ payload.Settles line.fields line.normalize.fields := by
  have hlength : line.usesLength = true ↔ ¬ payload.Idle "line.dash_length" := by
    simp [idle_dashLength_iff h, Stroke.usesLength]
  have hspace : line.usesSpace = true ↔ ¬ payload.Idle "line.dash_space" := by
    simp [idle_dashSpace_iff h, Stroke.usesSpace]
  refine .cons (.refl ?_) (.cons (.refl ?_) (.cons (.refl ?_) (.cons ?_ (.cons ?_ .nil))))
  · exact not_idle_of_notMem (by simp)
  · exact not_idle_of_notMem (by simp)
  · exact not_idle_of_notMem (by simp)
  · exact .of_uses hlength rfl (apply_ite FieldValue.number _ _ _)
  · exact .of_uses hspace rfl (apply_ite FieldValue.number _ _ _)

theorem isHatched_iff_not_idle (h : payload.value? "fill.type" = some (.integer fill.style))
    (hpath : path ∈ ["fill.width", "fill.angle0", "fill.pitch0"]) :
    fill.isHatched = true ↔ ¬ payload.Idle path := by
  simp only [List.mem_cons, List.not_mem_nil, or_false] at hpath
  rcases hpath with rfl | rfl | rfl <;>
    simp [Idle, IdleWithDash, IdleWithFill, h, Fill.isHatched, Fill.mesh, Fill.hatch,
      or_iff_not_imp_left]

theorem isMesh_iff_not_idle (h : payload.value? "fill.type" = some (.integer fill.style))
    (hpath : path ∈ ["fill.angle1", "fill.pitch1"]) :
    fill.isMesh = true ↔ ¬ payload.Idle path := by
  simp only [List.mem_cons, List.not_mem_nil, or_false] at hpath
  rcases hpath with rfl | rfl <;>
    simp [Idle, IdleWithDash, IdleWithFill, h, Fill.isMesh, Fill.mesh]

theorem forall₂_settles_fill
    (h : payload.value? "fill.type" = some (.integer fill.style)) :
    List.Forall₂ payload.Settles fill.fields fill.normalize.fields := by
  refine .cons (.refl (not_idle_of_notMem (by simp))) (.cons ?_ (.cons ?_ (.cons ?_ (.cons ?_
    (.cons ?_ .nil)))))
  · exact .of_uses (isHatched_iff_not_idle h (by simp)) rfl (apply_ite FieldValue.number _ _ _)
  · exact .of_uses (isHatched_iff_not_idle h (by simp)) rfl (apply_ite FieldValue.integer _ _ _)
  · exact .of_uses (isHatched_iff_not_idle h (by simp)) rfl (apply_ite FieldValue.number _ _ _)
  · exact .of_uses (isMesh_iff_not_idle h (by simp)) rfl (apply_ite FieldValue.integer _ _ _)
  · exact .of_uses (isMesh_iff_not_idle h (by simp)) rfl (apply_ite FieldValue.number _ _ _)

end Styles

/-- Field by field, what becomes of a payload in its normal form. -/
theorem forall₂_settles (payload : Payload) :
    List.Forall₂ payload.Settles payload.fields payload.normalize.fields := by
  cases payload with
  | arc d =>
      exact List.rel_append (forall₂_settles_self (by simp [posFields]))
        (forall₂_settles_stroke rfl)
  | box d =>
      exact List.rel_append (List.rel_append
        (forall₂_settles_self (by simp [posFields, sizeFields])) (forall₂_settles_stroke rfl))
        (forall₂_settles_fill rfl)
  | circle d =>
      exact List.rel_append (List.rel_append (forall₂_settles_self (by simp [posFields]))
        (forall₂_settles_stroke rfl)) (forall₂_settles_fill rfl)
  | line d =>
      exact List.rel_append (forall₂_settles_self (by simp [posFields, sizeFields]))
        (forall₂_settles_stroke rfl)
  | path d =>
      exact List.rel_append (List.rel_append (forall₂_settles_self (by simp))
        (forall₂_settles_stroke rfl)) (forall₂_settles_fill rfl)
  | component d => exact forall₂_settles_self (by simp [fields, posFields])
  | net d => exact forall₂_settles_self (by simp [fields, posFields, sizeFields])
  | picture d => exact forall₂_settles_self (by simp [fields, posFields, sizeFields])
  | text d => exact forall₂_settles_self (by simp [fields, posFields])

theorem lookup_of_settles {old new : List Field} (h : List.Forall₂ payload.Settles old new) :
    (payload.Idle path → Field.lookup new path =
      (Field.lookup old path).map fun _ => idleValue path) ∧
    (¬ payload.Idle path → Field.lookup new path = Field.lookup old path) := by
  induction h with
  | nil => exact ⟨fun _ => rfl, fun _ => rfl⟩
  | @cons old new _ _ hfield _ ih =>
      obtain ⟨hpath, hidle, hkept⟩ := hfield
      rw [Field.lookup_cons, Field.lookup_cons, hpath]
      by_cases heq : old.path = path
      · subst heq
        rw [if_pos rfl, if_pos rfl, Option.map_some]
        exact ⟨fun h => congrArg some (hidle h), fun h => congrArg some (hkept h)⟩
      · rw [if_neg heq, if_neg heq]
        exact ih

theorem value?_normalize_of_not_idle (h : ¬ payload.Idle path) :
    payload.normalize.value? path = payload.value? path :=
  (lookup_of_settles payload.forall₂_settles).2 h

theorem Idle.exists_value? (h : payload.Idle path) : ∃ value, payload.value? path = some value := by
  rcases h with ⟨dash, hdash, h⟩ | ⟨style, hstyle, h⟩
  · obtain ⟨rfl, -⟩ | ⟨rfl, -⟩ := h <;> cases payload <;> first | exact ⟨_, rfl⟩ | cases hdash
  · obtain ⟨hpath, -⟩ | ⟨hpath, -⟩ := h <;>
      simp only [List.mem_cons, List.not_mem_nil, or_false] at hpath
    · rcases hpath with rfl | rfl | rfl <;> cases payload <;>
        first | exact ⟨_, rfl⟩ | cases hstyle
    · rcases hpath with rfl | rfl <;> cases payload <;> first | exact ⟨_, rfl⟩ | cases hstyle

theorem value?_normalize_of_idle (h : payload.Idle path) :
    payload.normalize.value? path = some (idleValue path) := by
  obtain ⟨value, hvalue⟩ := h.exists_value?
  rw [value?, (lookup_of_settles payload.forall₂_settles).1 h]
  exact congrArg (Option.map _) hvalue

theorem not_idle_dash : ¬ payload.Idle "line.dash_style" := not_idle_of_notMem (by simp)

theorem not_idle_style : ¬ payload.Idle "fill.type" := not_idle_of_notMem (by simp)

/-! ### Equal normal forms -/

theorem eq_integer_iff_of_same {value value' : Option FieldValue} {n : Int32}
    (h : same value value' = true) : value = some (.integer n) ↔ value' = some (.integer n) := by
  rcases value with _ | _ | _ | _ | _ | _ <;> rcases value' with _ | _ | _ | _ | _ | _ <;>
    simp_all [same]

theorem idle_congr (hdash : same (a.value? "line.dash_style") (b.value? "line.dash_style") = true)
    (hstyle : same (a.value? "fill.type") (b.value? "fill.type") = true) :
    a.Idle path ↔ b.Idle path := by
  simp only [Idle, eq_integer_iff_of_same hdash, eq_integer_iff_of_same hstyle]

theorem same_idleValue (path : String) : same (some (idleValue path)) (some (idleValue path)) := by
  unfold idleValue
  split <;> rfl

theorem same_normalize_iff : same a.normalize b.normalize = true ↔ a.LooksLike b := by
  rw [same_iff, kind_normalize, kind_normalize, LooksLike]
  refine and_congr_right fun _ => ⟨fun h => ?_, fun h path => ?_⟩
  · have hidle : ∀ path, a.Idle path ↔ b.Idle path := by
      have hdash := h "line.dash_style"
      have hstyle := h "fill.type"
      rw [value?_normalize_of_not_idle not_idle_dash, value?_normalize_of_not_idle not_idle_dash]
        at hdash
      rw [value?_normalize_of_not_idle not_idle_style, value?_normalize_of_not_idle not_idle_style]
        at hstyle
      exact fun path => idle_congr hdash hstyle
    intro path hpath
    have hsame := h path
    rwa [value?_normalize_of_not_idle hpath,
      value?_normalize_of_not_idle fun hb => hpath ((hidle path).mpr hb)] at hsame
  · have hidle : a.Idle path ↔ b.Idle path :=
      idle_congr (h _ not_idle_dash) (h _ not_idle_style)
    by_cases hpath : a.Idle path
    · rw [value?_normalize_of_idle hpath, value?_normalize_of_idle (hidle.mp hpath)]
      exact same_idleValue path
    · rw [value?_normalize_of_not_idle hpath,
        value?_normalize_of_not_idle fun hb => hpath (hidle.mpr hb)]
      exact h path hpath

/-- Normalization gives a canonical form. What is kept of two valid payloads is the same just when
they look alike; of any payload, valid or not, the normal form keeps the kind, the styles and every
field that is not idle, and it has zero in every other one. -/
theorem normalize_outcome :
    (∀ a b : Payload, a.validate = .ok () → b.validate = .ok () →
      ∃ kept kept', a.accept = .ok kept ∧ b.accept = .ok kept' ∧
        (same kept kept' = true ↔ a.LooksLike b)) ∧
    ∀ payload : Payload,
      payload.normalize.normalize = payload.normalize ∧
      payload.normalize.kind = payload.kind ∧
      payload.normalize.fields.map Field.path = payload.fields.map Field.path ∧
      (∀ path ∈ ["line.dash_style", "fill.type"], ¬ payload.Idle path) ∧
      (∀ path, ¬ payload.Idle path → payload.normalize.value? path = payload.value? path) ∧
      (∀ path, payload.Idle path → payload.normalize.value? path = some (idleValue path)) ∧
      (payload.validate = .ok () → payload.normalize.validate = .ok ()) := by
  refine ⟨fun a b ha hb => ?_, fun payload => ?_⟩
  · exact ⟨_, _, accept_eq_ok_iff.mpr ⟨ha, rfl⟩, accept_eq_ok_iff.mpr ⟨hb, rfl⟩, same_normalize_iff⟩
  · exact ⟨normalize_normalize payload, kind_normalize payload, paths_eq (kind_normalize payload),
      by simp [not_idle_dash, not_idle_style], fun _ => value?_normalize_of_not_idle,
      fun _ => value?_normalize_of_idle, validate_normalize⟩

def filledBox : Payload :=
  box {
    pos := { x := ⟨0x8000000000000000⟩ }
    line := { dashLength := ⟨0x3FF0000000000000⟩ }
    fill := { style := 1, angle0 := 45 } }

theorem normalize_outcome_filledBox :
    filledBox.validate = .ok () ∧ (blank .box).validate = .ok () ∧
      ¬ filledBox.LooksLike (blank .box) ∧ filledBox.LooksLike (box { fill := { style := 1 } }) ∧
      filledBox.normalize ≠ (box { fill := { style := 1 } } : Payload).normalize ∧
      filledBox.normalize.value? "fill.angle0" = some (.integer 0) := by
  obtain ⟨kept, kept', hkept, hkept', hblank⟩ := normalize_outcome.1 filledBox (blank .box) rfl rfl
  obtain ⟨kept₁, kept₂, hkept₁, hkept₂, hplain⟩ :=
    normalize_outcome.1 filledBox (box { fill := { style := 1 } }) rfl rfl
  obtain ⟨-, rfl⟩ := accept_eq_ok_iff.mp hkept
  obtain ⟨-, rfl⟩ := accept_eq_ok_iff.mp hkept'
  obtain ⟨-, rfl⟩ := accept_eq_ok_iff.mp hkept₁
  obtain ⟨-, rfl⟩ := accept_eq_ok_iff.mp hkept₂
  obtain ⟨-, -, -, -, -, hidle, -⟩ := normalize_outcome.2 filledBox
  refine ⟨rfl, rfl, fun h => ?_, hplain.mp (by decide), by decide, ?_⟩
  · exact absurd (hblank.mpr h) (by decide)
  · exact hidle "fill.angle0" (.inr ⟨1, rfl, .inl ⟨by simp, by decide, by decide⟩⟩)

end Payload

end Schematic
