import Mathlib.Data.List.Nodup
import Mathlib.Logic.Relation
import Schematic.Proofs.Json.RoundTrip
import Schematic.Proofs.Payload.Schema

namespace Schematic

open Json (member? Record)

namespace Json

/-- A change to the members of an object of which only some names are looked at, and only the last
member under each of them. -/
inductive Rewrites (names : List String) (inside : String → Json → Json → Prop) :
    List (String × Json) → List (String × Json) → Prop
  | swap (front back : List (String × Json)) (m m' : String × Json) (h : m.1 ≠ m'.1) :
      Rewrites names inside (front ++ m :: m' :: back) (front ++ m' :: m :: back)
  /-- A member with a name that is not looked at is left out. -/
  | unknown (front back : List (String × Json)) (m : String × Json) (h : m.1 ∉ names) :
      Rewrites names inside (front ++ m :: back) (front ++ back)
  /-- A member is left out that is followed by another one with its name. -/
  | repeated (front back : List (String × Json)) (m : String × Json) (h : m.1 ∈ back.map Prod.fst) :
      Rewrites names inside (front ++ m :: back) (front ++ back)
  | inside (front back : List (String × Json)) (name : String) (x y : Json)
      (h : inside name x y) :
      Rewrites names inside (front ++ (name, x) :: back) (front ++ (name, y) :: back)

/-- Members of a group that can be changed into one another. -/
def Interchangeable (names : List String) : List (String × Json) → List (String × Json) → Prop :=
  Relation.EqvGen (Rewrites names fun _ _ _ => False)

variable {names : List String} {inside : String → Json → Json → Prop}
  {ms ms' : List (String × Json)} {name : String}

theorem member?_append (ms ms' : List (String × Json)) (name : String) :
    member? (ms ++ ms') name = (member? ms' name).or (member? ms name) := by
  rw [member?, List.reverse_append, List.lookup_append]
  rfl

theorem member?_cons (m : String × Json) (ms : List (String × Json)) (name : String) :
    member? (m :: ms) name = (member? ms name).or (if name = m.1 then some m.2 else none) := by
  rw [← List.singleton_append, member?_append]
  congr 1
  rw [member?, List.reverse_singleton, List.lookup_cons]
  by_cases h : name = m.1
  · simp [h]
  · simp [h, beq_eq_false_iff_ne.mpr h]

theorem isSome_member? (h : name ∈ ms.map Prod.fst) : (member? ms name).isSome = true := by
  induction ms with
  | nil => cases h
  | cons m ms ih =>
      rw [member?_cons, Option.isSome_or]
      rcases List.mem_cons.mp h with rfl | h
      · simp
      · rw [ih h, Bool.true_or]

theorem Rewrites.member?_eq_or (h : Rewrites names inside ms ms') (hname : name ∈ names) :
    member? ms name = member? ms' name ∨
      ∃ x y, member? ms name = some x ∧ member? ms' name = some y ∧ inside name x y := by
  cases h with
  | swap front back m m' hne =>
      left
      simp only [member?_append, member?_cons]
      by_cases hm : name = m.1
      · rw [if_neg fun hm' => hne (hm.symm.trans hm')]
        simp
      · rw [if_neg hm]
        simp
  | unknown front back m hm =>
      have hne : name ≠ m.1 := fun heq => hm (heq ▸ hname)
      left
      rw [member?_append, member?_cons, if_neg hne, Option.or_none, ← member?_append]
  | repeated front back m hm =>
      left
      rw [member?_append, member?_append, member?_cons]
      by_cases heq : name = m.1
      · obtain ⟨json, hjson⟩ := Option.isSome_iff_exists.mp (isSome_member? (heq ▸ hm))
        rw [hjson]
        rfl
      · rw [if_neg heq, Option.or_none]
  | inside front back name' x y hxy =>
      simp only [member?_append, member?_cons]
      cases member? back name with
      | some json => exact .inl rfl
      | none =>
          by_cases heq : name = name'
          · subst heq
            exact .inr ⟨x, y, by simp, by simp, hxy⟩
          · exact .inl (by simp [heq])

theorem Interchangeable.member?_eq (h : Interchangeable names ms ms') (hname : name ∈ names) :
    member? ms name = member? ms' name := by
  induction h with
  | rel ms ms' h => exact (h.member?_eq_or hname).resolve_right fun ⟨_, _, _, _, h⟩ => h
  | refl ms => rfl
  | symm ms ms' _ ih => exact ih.symm
  | trans ms ms' ms'' _ _ ih ih' => exact ih.trans ih'

end Json

namespace Payload

/-- There is a change inside a group of a payload, written as an object. -/
inductive GroupChange (kind : ObjectKind) : String → Json → Json → Prop
  | object {name : String} {members : List (String × Leaf)} {ms ms' : List (String × Json)}
      (hname : (name, .group members) ∈ schema kind)
      (h : Json.Interchangeable (members.map Prod.fst) ms ms') :
      GroupChange kind name (.object ms) (.object ms')

/-- Members that can be changed into one another where a payload of a kind is read. -/
def Alike (kind : ObjectKind) : List (String × Json) → List (String × Json) → Prop :=
  Relation.EqvGen (Json.Rewrites ((schema kind).map Prod.fst) (GroupChange kind))

variable {kind : ObjectKind} {ms ms' : List (String × Json)} {payload : Payload}

theorem nodup_schema (kind : ObjectKind) : ((schema kind).map Prod.fst).Nodup := by
  cases kind <;> decide

theorem GroupChange.reads_iff {entry : String × Form} (hentry : entry ∈ schema kind) {x y : Json}
    (h : GroupChange kind entry.1 x y) (value? : String → Option FieldValue) :
    entry.2.Reads (some x) value? ↔ entry.2.Reads (some y) value? := by
  obtain ⟨name, form⟩ := entry
  obtain ⟨hname, hsame⟩ := h
  rename_i members ms ms'
  obtain rfl : form = .group members :=
    congrArg Prod.snd (List.inj_on_of_nodup_map (nodup_schema kind) hentry hname rfl)
  refine and_congr (iff_of_true ?_ ?_) (forall₂_congr fun m hm => ?_)
  · rintro json ⟨⟩
    exact .object ms
  · rintro json ⟨⟩
    exact .object ms'
  · have hpart : member? ms m.1 = member? ms' m.1 := hsame.member?_eq (List.mem_map_of_mem hm)
    simp only [Option.bind_some, Json.part?, hpart]

theorem Alike.reads_iff (h : Alike kind ms ms') {entry : String × Form}
    (hentry : entry ∈ schema kind) (value? : String → Option FieldValue) :
    entry.2.Reads (member? ms entry.1) value? ↔ entry.2.Reads (member? ms' entry.1) value? := by
  induction h with
  | rel ms ms' h =>
      rcases h.member?_eq_or (List.mem_map_of_mem hentry) with heq | ⟨x, y, hx, hy, hxy⟩
      · rw [heq]
      · rw [hx, hy]
        exact hxy.reads_iff hentry value?
  | refl ms => exact Iff.rfl
  | symm ms ms' _ ih => exact ih.symm
  | trans ms ms' ms'' _ _ ih ih' => exact ih.trans ih'

theorem Alike.ofRecord?_eq (h : Alike kind ms ms') :
    ofRecord? kind (member? ms) = ofRecord? kind (member? ms') := by
  refine Option.ext fun payload => ?_
  rw [ofRecord?_eq_some_iff, ofRecord?_eq_some_iff]
  constructor
  · rintro ⟨hkind, hresource, hreads⟩
    exact ⟨hkind, hresource, fun entry hentry => (h.reads_iff hentry _).mp (hreads entry hentry)⟩
  · rintro ⟨hkind, hresource, hreads⟩
    exact ⟨hkind, hresource, fun entry hentry => (h.reads_iff hentry _).mpr (hreads entry hentry)⟩

/-- The members of an object are as the schema has them, as far as they are there. -/
def Conforms (kind : ObjectKind) (ms : List (String × Json)) : Prop :=
  ∀ entry ∈ schema kind, ∀ json, member? ms entry.1 = some json → entry.2.Fits json

theorem exists_ofRecord?_iff : (∃ payload, ofRecord? kind (member? ms) = some payload) ↔
    Conforms kind ms :=
  ⟨fun ⟨_, h⟩ => fits_of_ofRecord? h, exists_ofRecord?⟩

theorem ofText_eq_ok_iff {text : String} : ofText kind text = .ok payload ↔
    ∃ ms, Json.parse? text = some (.object ms) ∧ ofRecord? kind (member? ms) = some payload := by
  unfold ofText
  cases Json.parse? text with
  | none => simp
  | some json =>
      cases json with
      | object ms =>
          simp only [ofJson, Option.some_inj, Json.object.injEq, exists_eq_left']
          cases ofRecord? kind (member? ms) <;> simp
      | _ => simp [ofJson]

/-- A text is read as a payload just if it is an object that conforms to the schema of the kind, and
what is read is then what the schema says. The order of different names does not matter, nor do
members that are not in the schema, among them the kind and the resource of a payload. -/
theorem ofText_outcome (kind : ObjectKind) (text : String) :
    ((∃ payload, ofText kind text = .ok payload) ↔
      ∃ ms, Json.parse? text = some (.object ms) ∧ Conforms kind ms) ∧
    (∀ payload, ofText kind text = .ok payload ↔
      ∃ ms, Json.parse? text = some (.object ms) ∧ payload.ReadFrom kind (member? ms)) ∧
    (∀ ms other ms', Json.parse? text = some (.object ms) →
      Json.parse? other = some (.object ms') → Alike kind ms ms' →
        ofText kind other = ofText kind text) ∧
    (∀ name ∈ ["type", "symbol", "pixmap"], name ∉ (schema kind).map Prod.fst) ∧
    ∀ members, ("fill", .group members) ∈ schema kind → ("type", .integer) ∈ members := by
  refine ⟨?_, fun payload => ?_, fun ms other ms' htext hother halike => ?_, ?_, ?_⟩
  · simp only [ofText_eq_ok_iff, ← exists_ofRecord?_iff]
    constructor
    · rintro ⟨payload, ms, htext, hread⟩
      exact ⟨ms, htext, payload, hread⟩
    · rintro ⟨ms, htext, payload, hread⟩
      exact ⟨payload, ms, htext, hread⟩
  · simp only [ofText_eq_ok_iff, ofRecord?_eq_some_iff]
  · rw [ofText, ofText, htext, hother]
    simp only [ofJson, halike.ofRecord?_eq]
  · cases kind <;> decide
  · intro members hfill
    have hgroup : ∀ form, ("fill", form) ∈ schema kind → form = .fill := by
      cases kind <;> simp [schema]
    cases hgroup _ hfill
    exact List.mem_cons_self

def meshedBox : List (String × Json) :=
  [("pos", .array [.integer 1]), ("fill", .object [("type", .integer 2)])]

/-- The same box in another order, with a kind that it does not have. -/
def disguisedBox : List (String × Json) :=
  [("fill", .object [("type", .integer 2)]), ("type", .text "net"), ("pos", .array [.integer 1])]

theorem parse?_pretty_object (ms : List (String × Json)) (h : ∀ m ∈ ms, Json.Legible 126 m.2) :
    Json.parse? (Json.object ms).pretty = some (.object ms) := by
  have hlegible : Json.Legible Json.maxDepth (.object ms) := .object h
  simpa using hlegible.parse?_pretty "" (by simp)

theorem ofText_outcome_box :
    Json.parse? (Json.object meshedBox).pretty = some (.object meshedBox) ∧
      Json.parse? (Json.object disguisedBox).pretty = some (.object disguisedBox) ∧
      Alike .box meshedBox disguisedBox ∧ Conforms .box meshedBox ∧
      ofText .box (Json.object disguisedBox).pretty =
        ofText .box (Json.object meshedBox).pretty ∧
      (box { pos := { x := .ofInt 1 }, fill := { style := 2 } }).ReadFrom .box
        (member? meshedBox) := by
  have hpos : Json.Legible 126 (.array [.integer 1]) :=
    .array fun x hx => List.mem_singleton.mp hx ▸ .integer (by decide) (by decide)
  have hfill : Json.Legible 126 (.object [("type", .integer 2)]) :=
    .object fun m hm => List.mem_singleton.mp hm ▸ .integer (by decide) (by decide)
  have hmeshed := parse?_pretty_object meshedBox (by simp [meshedBox, hpos, hfill])
  have hdisguised := parse?_pretty_object disguisedBox
    (by simp [disguisedBox, hpos, hfill, Json.Legible.text])
  have halike : Alike .box meshedBox disguisedBox :=
    .trans _ _ _ (.rel _ _ (.swap [] [] _ _ (by decide)))
      (.symm _ _ (.rel _ _ (.unknown [_] [_] ("type", .text "net") (by decide))))
  obtain ⟨haccepts, hreads, hsame, -⟩ := ofText_outcome .box (Json.object meshedBox).pretty
  have htext : ofText .box (Json.object meshedBox).pretty =
      .ok (box { pos := { x := .ofInt 1 }, fill := { style := 2 } }) := by
    rw [ofText, hmeshed]
    rfl
  obtain ⟨ms, hms, hconforms⟩ := haccepts.mp ⟨_, htext⟩
  obtain ⟨ms', hms', hread⟩ := (hreads _).mp htext
  cases hmeshed.symm.trans hms
  cases hmeshed.symm.trans hms'
  exact ⟨hmeshed, hdisguised, halike, hconforms, hsame _ _ _ hmeshed hdisguised halike, hread⟩

end Payload

end Schematic
