import Schematic.Payload.Json
import Schematic.Proofs.Payload.NormalForm

/-!
`Payload.schema` lists the members from which a payload of each kind is read, with the form of each;
a group of fields is treated alike, whether it is written as an object or as an array. The readers
do what the schema says (`ofRecord?_eq_some_iff`), and they read whatever fits it
(`exists_ofRecord?`).
-/

namespace Schematic

open Json (int32? binary64? bool? text? record? member? Record)

/-! ### Forms -/

inductive Leaf
  | integer | number | flag | text
  deriving DecidableEq

namespace Leaf

/-- What a JSON value stands for in a field of this form. An integer is written without a point or
an exponent and has 32 bits; any number is a number. -/
inductive Gives : Leaf → Json → FieldValue → Prop
  | integer {n : Int} {value : Int32} (h : value.toInt = n) :
      Gives .integer (.integer n) (.integer value)
  | whole (n : Int) : Gives .number (.integer n) (.number (.ofInt n))
  | float (x : Binary64) : Gives .number (.float x) (.number x)
  | flag (b : Bool) : Gives .flag (.bool b) (.flag b)
  | text (s : String) : Gives .text (.text s) (.text s)

def Fits : Leaf → Json → Prop
  | integer, .integer n => -2147483648 ≤ n ∧ n < 2147483648
  | number, .integer _ => True
  | number, .float _ => True
  | flag, .bool _ => True
  | text, .text _ => True
  | _, _ => False

def default : Leaf → FieldValue
  | integer => .integer 0
  | number => .number .zero
  | flag => .flag false
  | text => .text ""

def Reads (leaf : Leaf) : Option Json → FieldValue → Prop
  | some json, value => leaf.Gives json value
  | none, value => value = leaf.default

variable {leaf : Leaf} {json : Json} {value : FieldValue} {r : Record} {name : String}

theorem gives_integer_iff {n : Int32} :
    integer.Gives json (.integer n) ↔ int32? json = some n := by
  constructor
  · rintro ⟨rfl⟩
    rw [int32?, if_pos ⟨n.minValue_le_toInt, n.toInt_le⟩, Int32.ofInt_toInt]
  · intro h
    unfold int32? at h
    split at h
    · split at h
      · rename_i hrange
        cases h
        exact .integer (Int32.toInt_ofInt_of_le hrange.1 (Int.lt_of_le_of_lt hrange.2 (by decide)))
      · cases h
    · cases h

theorem gives_number_iff {x : Binary64} :
    number.Gives json (.number x) ↔ binary64? json = some x := by
  constructor
  · rintro (_ | _) <;> rfl
  · intro h
    cases json <;> cases h
    · exact .whole _
    · exact .float _

theorem gives_flag_iff {b : Bool} : flag.Gives json (.flag b) ↔ bool? json = some b := by
  constructor
  · rintro ⟨⟩
    rfl
  · intro h
    cases json <;> cases h
    exact .flag b

theorem gives_text_iff {s : String} : Leaf.text.Gives json (.text s) ↔ text? json = some s := by
  constructor
  · rintro ⟨⟩
    rfl
  · intro h
    cases json <;> cases h
    exact .text s

theorem fits_iff : leaf.Fits json ↔ ∃ value, leaf.Gives json value := by
  constructor
  · intro h
    cases leaf <;> cases json <;> try cases h
    · rename_i n hlower hupper
      exact ⟨_, .integer (Int32.toInt_ofInt_of_le hlower hupper)⟩
    · exact ⟨_, .whole _⟩
    · exact ⟨_, .float _⟩
    · exact ⟨_, .flag _⟩
    · exact ⟨_, .text _⟩
  · rintro ⟨value, h⟩
    cases h with
    | integer hvalue => exact hvalue ▸ ⟨Int32.le_toInt _, Int32.toInt_lt _⟩
    | _ => trivial

theorem reads_iff {α : Type} {read? : Json → Option α} {a default : α} {wrap : α → FieldValue}
    (hgives : ∀ json, leaf.Gives json (wrap a) ↔ read? json = some a)
    (hdefault : wrap a = leaf.default ↔ default = a) :
    leaf.Reads (r name) (wrap a) ↔ r.get? name read? default = some a := by
  unfold Record.get?
  cases r name with
  | none => exact hdefault.trans Option.some_inj.symm
  | some json => exact hgives json

theorem reads_integer_iff {n : Int32} :
    integer.Reads (r name) (.integer n) ↔ r.get? name int32? 0 = some n :=
  reads_iff (fun _ => gives_integer_iff) (by simp [default, eq_comm])

theorem reads_number_iff {x : Binary64} :
    number.Reads (r name) (.number x) ↔ r.get? name binary64? .zero = some x :=
  reads_iff (fun _ => gives_number_iff) (by simp [default, eq_comm])

theorem reads_flag_iff {b : Bool} :
    flag.Reads (r name) (.flag b) ↔ r.get? name bool? false = some b :=
  reads_iff (fun _ => gives_flag_iff) (by simp [default, eq_comm])

theorem reads_text_iff {s : String} :
    Leaf.text.Reads (r name) (.text s) ↔ r.get? name text? "" = some s :=
  reads_iff (fun _ => gives_text_iff) (by simp [default, eq_comm])

end Leaf

/-- The form of a member: a single value, or a group of named ones in order. -/
inductive Form
  | leaf (leaf : Leaf)
  | group (members : List (String × Leaf))

namespace Json

/-- The part of a group that has a name, where the group is written as an object, or as an array of
the values that the given names have in order. -/
def part? (names : List String) (name : String) : Json → Option Json
  | .object ms => member? ms name
  | .array xs => xs[names.idxOf name]?
  | _ => none

/-- An object, or an array of at most as many values as a group has. -/
inductive IsGroup (count : Nat) : Json → Prop
  | object (ms : List (String × Json)) : IsGroup count (.object ms)
  | array (xs : List Json) (h : xs.length ≤ count) : IsGroup count (.array xs)

theorem lookup_zip (names : List String) (xs : List Json) (name : String)
    (h : xs.length ≤ names.length) :
    (names.zip xs).lookup name = xs[names.idxOf name]? := by
  induction names generalizing xs with
  | nil =>
      obtain rfl := List.length_eq_zero_iff.mp (Nat.le_zero.mp h)
      rfl
  | cons first names ih =>
      cases xs with
      | nil => rfl
      | cons x xs =>
          rw [List.zip_cons_cons, List.lookup_cons, List.idxOf_cons]
          by_cases heq : name = first
          · subst heq
            simp
          · have hne : (name == first) = false := beq_eq_false_iff_ne.mpr heq
            have hne' : (first == name) = false := beq_eq_false_iff_ne.mpr (Ne.symm heq)
            rw [hne, hne', ih xs (Nat.le_of_succ_le_succ h)]
            rfl

theorem record?_eq_some_iff {names : List String} {json : Json} {r : Record} :
    record? names json = some r ↔
      IsGroup names.length json ∧ ∀ name, r name = part? names name json := by
  cases json with
  | object ms =>
      refine Option.some_inj.trans ⟨?_, fun h => ?_⟩
      · rintro rfl
        exact ⟨.object ms, fun _ => rfl⟩
      · exact funext fun name => (h.2 name).symm
  | array xs =>
      by_cases h : xs.length ≤ names.length
      · have hrecord : record? names (.array xs) = some fun name => (names.zip xs).lookup name :=
          if_pos h
        rw [hrecord, Option.some_inj]
        constructor
        · rintro rfl
          exact ⟨.array xs h, fun name => lookup_zip names xs name h⟩
        · exact fun hparts => funext fun name =>
            (lookup_zip names xs name h).trans (hparts.2 name).symm
      · have hrecord : record? names (.array xs) = none := if_neg h
        rw [hrecord]
        refine iff_of_false (by simp) ?_
        rintro ⟨⟨⟩, -⟩
        contradiction
  | _ =>
      refine iff_of_false (fun h => nomatch h) ?_
      rintro ⟨⟨⟩, -⟩

theorem exists_record?_iff {names : List String} {json : Json} {P : Record → Prop} :
    (∃ r, record? names json = some r ∧ P r) ↔
      IsGroup names.length json ∧ P fun name => part? names name json := by
  constructor
  · rintro ⟨r, hr, hP⟩
    obtain ⟨hgroup, hparts⟩ := record?_eq_some_iff.mp hr
    obtain rfl : r = fun name => part? names name json := funext hparts
    exact ⟨hgroup, hP⟩
  · rintro ⟨hgroup, hP⟩
    exact ⟨_, record?_eq_some_iff.mpr ⟨hgroup, fun _ => rfl⟩, hP⟩

end Json

namespace Form

def point : Form := group [("x", .number), ("y", .number)]

def stroke : Form :=
  group [("width", .number), ("cap_style", .integer), ("dash_style", .integer),
    ("dash_length", .number), ("dash_space", .number)]

def fill : Form :=
  group [("type", .integer), ("width", .number), ("angle0", .integer), ("pitch0", .number),
    ("angle1", .integer), ("pitch1", .number)]

def Fits : Form → Json → Prop
  | leaf l, json => l.Fits json
  | group members, json => json.IsGroup members.length ∧
      ∀ m ∈ members, ∀ part, json.part? (members.map Prod.fst) m.1 = some part → m.2.Fits part

/-- What a member that may be missing stands for: the values under the paths below the member, which
are empty for a single value. -/
def Reads (json? : Option Json) (value? : String → Option FieldValue) : Form → Prop
  | leaf l => ∃ value, value? "" = some value ∧ l.Reads json? value
  | group members => (∀ json, json? = some json → json.IsGroup members.length) ∧
      ∀ m ∈ members, ∃ value, value? ("." ++ m.1) = some value ∧
        m.2.Reads (json?.bind (Json.part? (members.map Prod.fst) m.1)) value

variable {json : Json}

theorem fits_group_iff {members : List (String × Leaf)} :
    (group members).Fits json ↔ json.IsGroup members.length ∧ ∀ m ∈ members, ∀ part,
      json.part? (members.map Prod.fst) m.1 = some part → (leaf m.2).Fits part :=
  Iff.rfl

theorem fits_of_reads {form : Form} {value? : String → Option FieldValue}
    (h : form.Reads (some json) value?) : form.Fits json := by
  cases form with
  | leaf l =>
      obtain ⟨value, -, hgives⟩ := h
      exact Leaf.fits_iff.mpr ⟨value, hgives⟩
  | group members =>
      obtain ⟨hgroup, hparts⟩ := h
      refine ⟨hgroup json rfl, fun m hm part hpart => ?_⟩
      obtain ⟨value, -, hreads⟩ := hparts m hm
      rw [Option.bind_some, hpart] at hreads
      exact Leaf.fits_iff.mpr ⟨value, hreads⟩

end Form

def Json.Record.Fits (r : Record) (entries : List (String × Form)) : Prop :=
  ∀ entry ∈ entries, ∀ json, r entry.1 = some json → entry.2.Fits json

/-! ### Readers

What the readers of members give, with the values looked up by the paths below the member. -/

section Readers

variable {json : Json} {r : Record} {name : String} {value? : String → Option FieldValue}

theorem get?_eq_some_iff {α : Type} {form : Form} {read? : Json → Option α} {default a : α}
    (hsome : ∀ json, read? json = some a ↔ form.Reads (some json) value?)
    (hnone : default = a ↔ form.Reads none value?) :
    r.get? name read? default = some a ↔ form.Reads (r name) value? := by
  unfold Record.get?
  cases r name with
  | none => exact Option.some_inj.trans hnone
  | some json => exact hsome json

theorem get?_int32?_eq_some_iff {n : Int32} (h : value? "" = some (.integer n)) :
    r.get? name int32? 0 = some n ↔ (Form.leaf .integer).Reads (r name) value? := by
  simp [Form.Reads, h, Leaf.reads_integer_iff]

theorem get?_binary64?_eq_some_iff {x : Binary64} (h : value? "" = some (.number x)) :
    r.get? name binary64? .zero = some x ↔ (Form.leaf .number).Reads (r name) value? := by
  simp [Form.Reads, h, Leaf.reads_number_iff]

theorem get?_bool?_eq_some_iff {b : Bool} (h : value? "" = some (.flag b)) :
    r.get? name bool? false = some b ↔ (Form.leaf .flag).Reads (r name) value? := by
  simp [Form.Reads, h, Leaf.reads_flag_iff]

theorem get?_text?_eq_some_iff {s : String} (h : value? "" = some (.text s)) :
    r.get? name text? "" = some s ↔ (Form.leaf .text).Reads (r name) value? := by
  simp [Form.Reads, h, Leaf.reads_text_iff]

theorem get?_point_eq_some_iff {p : Point} (hx : value? ".x" = some (.number p.x))
    (hy : value? ".y" = some (.number p.y)) :
    r.get? name Point.ofJson? {} = some p ↔ Form.point.Reads (r name) value? := by
  cases p
  refine get?_eq_some_iff (fun json => ?_) ?_
  · simp [Point.ofJson?, Form.point, Form.Reads, Json.exists_record?_iff, hx, hy,
      Option.bind_eq_some_iff, ← Leaf.reads_number_iff]
  · simp [Form.point, Form.Reads, Leaf.Reads, Leaf.default, hx, hy, eq_comm]

theorem get?_stroke_eq_some_iff {line : Stroke}
    (hwidth : value? ".width" = some (.number line.width))
    (hcap : value? ".cap_style" = some (.integer line.cap))
    (hdash : value? ".dash_style" = some (.integer line.dash))
    (hlength : value? ".dash_length" = some (.number line.dashLength))
    (hspace : value? ".dash_space" = some (.number line.dashSpace)) :
    r.get? name Stroke.ofJson? {} = some line ↔ Form.stroke.Reads (r name) value? := by
  cases line
  refine get?_eq_some_iff (fun json => ?_) ?_
  · simp [Stroke.ofJson?, Form.stroke, Form.Reads, Json.exists_record?_iff, hwidth, hcap, hdash,
      hlength, hspace, Option.bind_eq_some_iff, ← Leaf.reads_number_iff, ← Leaf.reads_integer_iff]
  · simp [Form.stroke, Form.Reads, Leaf.Reads, Leaf.default, hwidth, hcap, hdash, hlength, hspace,
      eq_comm]

theorem get?_fill_eq_some_iff {fill : Fill}
    (hstyle : value? ".type" = some (.integer fill.style))
    (hwidth : value? ".width" = some (.number fill.width))
    (hangle0 : value? ".angle0" = some (.integer fill.angle0))
    (hpitch0 : value? ".pitch0" = some (.number fill.pitch0))
    (hangle1 : value? ".angle1" = some (.integer fill.angle1))
    (hpitch1 : value? ".pitch1" = some (.number fill.pitch1)) :
    r.get? name Fill.ofJson? {} = some fill ↔ Form.fill.Reads (r name) value? := by
  cases fill
  refine get?_eq_some_iff (fun json => ?_) ?_
  · simp [Fill.ofJson?, Form.fill, Form.Reads, Json.exists_record?_iff, hstyle, hwidth, hangle0,
      hpitch0, hangle1, hpitch1, Option.bind_eq_some_iff, ← Leaf.reads_number_iff,
      ← Leaf.reads_integer_iff]
  · simp [Form.fill, Form.Reads, Leaf.Reads, Leaf.default, hstyle, hwidth, hangle0, hpitch0,
      hangle1, hpitch1, eq_comm]

/-! A reader takes whatever fits the form of the member. -/

theorem exists_get?_bind_eq_some {α β : Type} {form : Form} {read? : Json → Option α} {default : α}
    {entries : List (String × Form)} {rest : α → Option β}
    (hread : ∀ {json}, form.Fits json → ∃ a, read? json = some a)
    (hr : r.Fits ((name, form) :: entries))
    (hrest : r.Fits entries → ∀ a, ∃ b, rest a = some b) :
    ∃ b, (r.get? name read? default >>= rest) = some b := by
  obtain ⟨hfirst, hentries⟩ := List.forall_mem_cons.mp hr
  have hget : ∃ a, r.get? name read? default = some a := by
    unfold Record.get?
    cases hjson : r name with
    | none => exact ⟨default, rfl⟩
    | some json => exact hread (hfirst json hjson)
  obtain ⟨a, ha⟩ := hget
  obtain ⟨b, hb⟩ := hrest hentries a
  exact ⟨b, by rw [ha, ← hb]; rfl⟩

theorem exists_record?_bind_eq_some {α : Type} {members : List (String × Leaf)}
    {build : Record → Option α}
    (hbuild : ∀ r : Record, r.Fits (members.map fun m => (m.1, .leaf m.2)) → ∃ a, build r = some a)
    (h : (Form.group members).Fits json) :
    ∃ a, (record? (members.map Prod.fst) json >>= build) = some a := by
  obtain ⟨hgroup, hparts⟩ := Form.fits_group_iff.mp h
  have hlength : (members.map Prod.fst).length = members.length := List.length_map Prod.fst
  have hrecord := Json.record?_eq_some_iff.mpr ⟨hlength.symm ▸ hgroup, fun _ => rfl⟩
  rw [hrecord]
  refine hbuild _ fun entry hentry => ?_
  obtain ⟨m, hm, rfl⟩ := List.mem_map.mp hentry
  exact hparts m hm

theorem exists_int32?_eq_some (h : (Form.leaf .integer).Fits json) : ∃ n, int32? json = some n := by
  obtain ⟨_, hgives⟩ := Leaf.fits_iff.mp h
  cases hgives with
  | integer hvalue => exact ⟨_, Leaf.gives_integer_iff.mp (.integer hvalue)⟩

theorem exists_binary64?_eq_some (h : (Form.leaf .number).Fits json) :
    ∃ x, binary64? json = some x := by
  obtain ⟨_, hgives⟩ := Leaf.fits_iff.mp h
  cases hgives <;> exact ⟨_, rfl⟩

theorem exists_bool?_eq_some (h : (Form.leaf .flag).Fits json) : ∃ b, bool? json = some b := by
  obtain ⟨_, hgives⟩ := Leaf.fits_iff.mp h
  cases hgives
  exact ⟨_, rfl⟩

theorem exists_text?_eq_some (h : (Form.leaf .text).Fits json) : ∃ s, text? json = some s := by
  obtain ⟨_, hgives⟩ := Leaf.fits_iff.mp h
  cases hgives
  exact ⟨_, rfl⟩

theorem exists_point_eq_some (h : Form.point.Fits json) : ∃ a, Point.ofJson? json = some a :=
  exists_record?_bind_eq_some (fun _ hr =>
    exists_get?_bind_eq_some exists_binary64?_eq_some hr fun hr _ =>
    exists_get?_bind_eq_some exists_binary64?_eq_some hr fun _ _ => ⟨_, rfl⟩) h

theorem exists_stroke_eq_some (h : Form.stroke.Fits json) : ∃ a, Stroke.ofJson? json = some a :=
  exists_record?_bind_eq_some (fun _ hr =>
    exists_get?_bind_eq_some exists_binary64?_eq_some hr fun hr _ =>
    exists_get?_bind_eq_some exists_int32?_eq_some hr fun hr _ =>
    exists_get?_bind_eq_some exists_int32?_eq_some hr fun hr _ =>
    exists_get?_bind_eq_some exists_binary64?_eq_some hr fun hr _ =>
    exists_get?_bind_eq_some exists_binary64?_eq_some hr fun _ _ => ⟨_, rfl⟩) h

theorem exists_fill_eq_some (h : Form.fill.Fits json) : ∃ a, Fill.ofJson? json = some a :=
  exists_record?_bind_eq_some (fun _ hr =>
    exists_get?_bind_eq_some exists_int32?_eq_some hr fun hr _ =>
    exists_get?_bind_eq_some exists_binary64?_eq_some hr fun hr _ =>
    exists_get?_bind_eq_some exists_int32?_eq_some hr fun hr _ =>
    exists_get?_bind_eq_some exists_binary64?_eq_some hr fun hr _ =>
    exists_get?_bind_eq_some exists_int32?_eq_some hr fun hr _ =>
    exists_get?_bind_eq_some exists_binary64?_eq_some hr fun _ _ => ⟨_, rfl⟩) h

end Readers

/-! ### Schemas -/

namespace Payload

def schema : ObjectKind → List (String × Form)
  | .arc =>
      [("pos", .point), ("radius", .leaf .number), ("startangle", .leaf .integer),
        ("sweepangle", .leaf .integer), ("color", .leaf .integer), ("line", .stroke)]
  | .box =>
      [("pos", .point), ("size", .point), ("color", .leaf .integer), ("line", .stroke),
        ("fill", .fill)]
  | .circle =>
      [("pos", .point), ("radius", .leaf .number), ("color", .leaf .integer), ("line", .stroke),
        ("fill", .fill)]
  | .component =>
      [("pos", .point), ("selectable", .leaf .flag), ("angle", .leaf .integer),
        ("mirror", .leaf .flag)]
  | .line =>
      [("pos", .point), ("size", .point), ("color", .leaf .integer), ("line", .stroke)]
  | .net =>
      [("pos", .point), ("size", .point), ("color", .leaf .integer), ("is_bus", .leaf .flag),
        ("is_pin", .leaf .flag), ("is_inverted", .leaf .flag)]
  | .path =>
      [("pathdata", .leaf .text), ("color", .leaf .integer), ("line", .stroke), ("fill", .fill)]
  | .picture =>
      [("pos", .point), ("size", .point), ("angle", .leaf .integer), ("mirror", .leaf .flag)]
  | .text =>
      [("pos", .point), ("color", .leaf .integer), ("text_size", .leaf .integer),
        ("visibility", .leaf .flag), ("show_name_value", .leaf .integer),
        ("angle", .leaf .integer), ("alignment", .leaf .integer), ("text", .leaf .text)]

/-- The payload is of this kind, has no resource, and has in all other fields what a group of
members stands for, or a default. -/
structure ReadFrom (payload : Payload) (kind : ObjectKind) (r : Record) : Prop where
  kind_eq : payload.kind = kind
  resource_eq : payload.resource = .empty
  reads : ∀ entry ∈ schema kind,
    entry.2.Reads (r entry.1) fun path => payload.value? (entry.1 ++ path)

variable {payload : Payload} {kind : ObjectKind} {r : Record}

theorem kind_of_ofRecord? (h : ofRecord? kind r = some payload) : payload.kind = kind := by
  cases kind <;> simp only [ofRecord?, Option.bind_eq_bind, Option.bind_eq_some_iff,
    Option.pure_def, Option.some_inj] at h <;> grind [Payload.kind]

theorem readFrom_kind_iff : payload.ReadFrom payload.kind r ↔
    (∀ entry ∈ schema payload.kind,
      entry.2.Reads (r entry.1) fun path => payload.value? (entry.1 ++ path)) ∧
      .empty = payload.resource :=
  ⟨fun h => ⟨h.reads, h.resource_eq.symm⟩, fun h => ⟨rfl, h.2.symm, h.1⟩⟩

theorem ofRecord?_eq_some_iff : ofRecord? kind r = some payload ↔ payload.ReadFrom kind r := by
  by_cases hkind : payload.kind = kind
  · subst hkind
    rw [readFrom_kind_iff]
    rcases payload with ⟨⟨⟩⟩ | ⟨⟨⟩⟩ | ⟨⟨⟩⟩ | ⟨⟨⟩⟩ | ⟨⟨⟩⟩ | ⟨⟨⟩⟩ | ⟨⟨⟩⟩ | ⟨⟨⟩⟩ | ⟨⟨⟩⟩ <;>
      simp only [Payload.kind, resource, ofRecord?, Option.bind_eq_bind, Option.bind_eq_some_iff,
        Option.pure_def, Option.some_inj, arc.injEq, Arc.mk.injEq, box.injEq, Box.mk.injEq,
        circle.injEq, Circle.mk.injEq, component.injEq, Component.mk.injEq, line.injEq,
        Line.mk.injEq, net.injEq, Net.mk.injEq, path.injEq, Path.mk.injEq, picture.injEq,
        Picture.mk.injEq, text.injEq, Text.mk.injEq, ↓existsAndEq, schema, List.mem_cons,
        List.not_mem_nil, or_false, forall_eq_or_imp, forall_eq, true_and, and_true, and_assoc]
    all_goals repeat' apply and_congr
    -- Every member is left with its reader.
    all_goals first
      | exact get?_point_eq_some_iff rfl rfl
      | exact get?_stroke_eq_some_iff rfl rfl rfl rfl rfl
      | exact get?_fill_eq_some_iff rfl rfl rfl rfl rfl rfl
      | exact get?_binary64?_eq_some_iff rfl
      | exact get?_int32?_eq_some_iff rfl
      | exact get?_bool?_eq_some_iff rfl
      | exact get?_text?_eq_some_iff rfl
      | exact Iff.rfl
  · exact iff_of_false (fun h => hkind (kind_of_ofRecord? h)) fun h => hkind h.kind_eq

theorem fits_of_ofRecord? (h : ofRecord? kind r = some payload) : r.Fits (schema kind) := by
  intro entry hentry json hjson
  have hreads := (ofRecord?_eq_some_iff.mp h).reads entry hentry
  rw [hjson] at hreads
  exact Form.fits_of_reads hreads

theorem exists_ofRecord? (h : r.Fits (schema kind)) :
    ∃ payload, ofRecord? kind r = some payload := by
  unfold schema at h
  unfold ofRecord?
  cases kind
  all_goals
    repeat first
      | refine exists_get?_bind_eq_some exists_point_eq_some h fun h _ => ?_
      | refine exists_get?_bind_eq_some exists_stroke_eq_some h fun h _ => ?_
      | refine exists_get?_bind_eq_some exists_fill_eq_some h fun h _ => ?_
      | refine exists_get?_bind_eq_some exists_int32?_eq_some h fun h _ => ?_
      | refine exists_get?_bind_eq_some exists_binary64?_eq_some h fun h _ => ?_
      | refine exists_get?_bind_eq_some exists_bool?_eq_some h fun h _ => ?_
      | refine exists_get?_bind_eq_some exists_text?_eq_some h fun h _ => ?_
    exact ⟨_, rfl⟩

end Payload

end Schematic
