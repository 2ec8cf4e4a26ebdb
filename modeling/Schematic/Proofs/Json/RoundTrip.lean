import Mathlib.Data.List.Forall2
import Schematic.Json.Parser
import Schematic.Proofs.Json.Scanning

/-!
A value that is written with line breaks and indentation is read again as it was, if its integers
fit 64 bits, if it is not nested too deeply, and if the text of each of its binary64 numbers is read
as that number. The last is a matter of each number alone.
-/

namespace Schematic.Json

open Numeral (Ends)
open Token (Scans)

/-- The text of the number is read as the number itself. -/
def ReadsBack (x : Binary64) : Prop :=
  Numeral.read? (writeFloat x).toList = some (.float x, [])

theorem readsBack_iff {x : Binary64} : ReadsBack x ↔
    (match Numeral.read? (writeFloat x).toList with
      | some (.float y, []) => decide (y = x)
      | _ => false) = true := by
  unfold ReadsBack
  split <;> simp_all

instance (x : Binary64) : Decidable (ReadsBack x) := decidable_of_iff _ readsBack_iff.symm

/-- The digits 9033333333333333 of `271 / 3` are more than a binary64 number can hold: they are
rounded before they are divided by a power of ten, and their quotient is rounded again. -/
example : ¬ReadsBack ((Binary64.ofNat 271).divMagnitude (.ofNat 3)) := by decide +kernel

/-- What can be written and read again, with at most `depth` arrays and objects inside one
another. -/
inductive Legible : Nat → Json → Prop
  | null {depth : Nat} : Legible depth .null
  | bool {depth : Nat} (b : Bool) : Legible depth (.bool b)
  | integer {depth : Nat} {n : Int} (hlower : -(UInt64.size / 2 : Nat) ≤ n)
      (hupper : n ≤ Numeral.limit) : Legible depth (.integer n)
  | float {depth : Nat} {x : Binary64} (h : ReadsBack x) : Legible depth (.float x)
  | text {depth : Nat} (s : String) : Legible depth (.text s)
  | array {depth : Nat} {xs : List Json} (h : ∀ x ∈ xs, Legible depth x) :
      Legible (depth + 1) (.array xs)
  | object {depth : Nat} {ms : List (String × Json)} (h : ∀ m ∈ ms, Legible depth m.2) :
      Legible (depth + 1) (.object ms)

mutual

def tokens : Json → List Token
  | .null => [.value .null]
  | .bool b => [.value (.bool b)]
  | .integer n => [.value (.integer n)]
  | .float x => [.value (.float x)]
  | .text s => [.text s]
  | .array xs => .openArray :: [.comma].intercalate (elementTokens xs) ++ [.closeArray]
  | .object ms => .openObject :: [.comma].intercalate (memberTokens ms) ++ [.closeObject]

def elementTokens : List Json → List (List Token)
  | [] => []
  | x :: xs => tokens x :: elementTokens xs

def memberTokens : List (String × Json) → List (List Token)
  | [] => []
  | (name, x) :: ms => (.text name :: .colon :: tokens x) :: memberTokens ms

end

/-! ### From the text to the tokens -/

/-- The text is cut into the tokens wherever it stands, if no numeral goes on behind it. -/
def Cuts (text : String) (ts : List Token) : Prop :=
  ∀ rest us, Ends rest → Scans rest us → Scans (text.toList ++ rest) (ts ++ us)

variable {level : Nat} {items : List String} {tss : List (List Token)}

theorem cuts_intercalate (h : List.Forall₂ Cuts items tss) :
    Cuts (("," ++ lineStart level).intercalate items) ([Token.comma].intercalate tss) := by
  induction h with
  | nil => exact fun rest us _ hrest => hrest
  | @cons item ts items tss hitem hitems ih =>
      cases hitems with
      | nil => simpa using hitem
      | cons hitem' hitems =>
          intro rest us hends hrest
          have hitems := ((ih rest us hends hrest).lineStart level).comma
          have hcomma := hitem _ _ Token.ends_comma hitems
          rw [String.intercalate_cons_cons, List.intercalate_cons_cons]
          simpa using hcomma

theorem ends_lineStart (rest : List Char) : Ends ((lineStart level).toList ++ rest) := by
  rw [Token.toList_lineStart, List.cons_append]
  exact Token.ends_of_isBlank rfl

theorem cuts_block {opening closing : String} {first last : Token}
    (hopening : ∀ rest us, Scans rest us → Scans (opening.toList ++ rest) (first :: us))
    (hclosing : ∀ rest us, Scans rest us → Scans (closing.toList ++ rest) (last :: us))
    (h : List.Forall₂ Cuts items tss) :
    Cuts (block opening closing level items)
      (first :: [Token.comma].intercalate tss ++ [last]) := by
  intro rest us hends hrest
  unfold block
  split
  · cases h with
    | nil => simpa using hopening _ _ (hclosing _ _ hrest)
    | cons _ _ => rename_i hempty; cases hempty
  · have hitems : Cuts (("," ++ lineStart (level + 1)).intercalate items) _ := cuts_intercalate h
    have hlast := (hclosing _ _ hrest).lineStart level
    have hbetween := (hitems _ _ (ends_lineStart _) hlast).lineStart (level + 1)
    simpa using hopening _ _ hbetween

theorem indentedElements_eq_map (xs : List Json) :
    indentedElements level xs = xs.map (indented level) := by
  induction xs with
  | nil => rfl
  | cons x xs ih => rw [indentedElements, ih, List.map_cons]

theorem indentedMembers_eq_map (ms : List (String × Json)) :
    indentedMembers level ms = ms.map fun m => writeText m.1 ++ ": " ++ indented level m.2 := by
  induction ms with
  | nil => rfl
  | cons m ms ih => rw [indentedMembers, ih, List.map_cons]

theorem elementTokens_eq_map (xs : List Json) : elementTokens xs = xs.map tokens := by
  induction xs with
  | nil => rfl
  | cons x xs ih => rw [elementTokens, ih, List.map_cons]

def memberToken (m : String × Json) : List Token := .text m.1 :: .colon :: m.2.tokens

@[simp] theorem length_memberToken (m : String × Json) :
    (memberToken m).length = m.2.tokens.length + 2 := rfl

theorem memberTokens_eq_map (ms : List (String × Json)) :
    memberTokens ms = ms.map memberToken := by
  induction ms with
  | nil => rfl
  | cons m ms ih => rw [memberTokens, ih, List.map_cons, memberToken]

variable {depth : Nat} {json : Json}

theorem Legible.cuts (h : Legible depth json) (level : Nat) :
    Cuts (indented level json) json.tokens := by
  induction h generalizing level with
  | null =>
      rw [indented, tokens]
      exact fun _ _ _ hrest => hrest.null
  | bool b =>
      rw [indented, tokens]
      exact fun _ _ _ hrest => hrest.bool b
  | integer hlower hupper =>
      rw [indented, tokens]
      exact fun _ _ hends hrest => hrest.numeral hends (Numeral.read?_toString hlower hupper)
  | float h =>
      rw [indented, tokens]
      exact fun _ _ hends hrest => hrest.numeral hends h
  | text s =>
      rw [indented, tokens]
      exact fun _ _ _ hrest => hrest.text s
  | @array depth xs h ih =>
      rw [indented, tokens, indentedElements_eq_map, elementTokens_eq_map]
      refine cuts_block (fun _ _ => Scans.openArray) (fun _ _ => Scans.closeArray) ?_
      rw [List.forall₂_map_left_iff, List.forall₂_map_right_iff, List.forall₂_same]
      exact fun x hx => ih x hx (level + 1)
  | @object depth ms h ih =>
      rw [indented, tokens, indentedMembers_eq_map, memberTokens_eq_map]
      refine cuts_block (fun _ _ => Scans.openObject) (fun _ _ => Scans.closeObject) ?_
      rw [List.forall₂_map_left_iff, List.forall₂_map_right_iff, List.forall₂_same]
      intro m hm rest us hends hrest
      have hvalue := ih m hm (level + 1) rest us hends hrest
      have hblank : Scans (' ' :: _) _ := hvalue.blank rfl
      simpa [memberToken] using hblank.colon.text m.1

/-! ### From the tokens to the value -/

namespace Parser

variable {bound : Nat} {ts us rest : List Token} {name : String} {x : Json} {xs : List Json}
  {ms : List (String × Json)}

theorem elements_closeArray : elements bound depth (.closeArray :: ts) = none := by
  cases bound with
  | zero => rfl
  | succ bound => cases bound <;> rfl

theorem value_openArray (h : elements bound depth ts = some (xs, rest)) :
    value (bound + 1) (depth + 1) (.openArray :: ts) = some (.array xs, rest) := by
  rw [value, h]
  · rfl
  · rintro tail rfl
    rw [elements_closeArray] at h
    cases h

theorem members_closeObject : members bound depth (.closeObject :: ts) = none := by
  cases bound <;> rfl

theorem value_openObject (h : members bound depth ts = some (ms, rest)) :
    value (bound + 1) (depth + 1) (.openObject :: ts) = some (.object ms, rest) := by
  rw [value, h]
  · rfl
  · rintro tail rfl
    rw [members_closeObject] at h
    cases h

theorem elements_last (h : value bound depth ts = some (x, .closeArray :: rest)) :
    elements (bound + 1) depth ts = some ([x], rest) := by
  rw [elements, h]
  rfl

theorem elements_comma (h : value bound depth ts = some (x, .comma :: us))
    (hxs : elements bound depth us = some (xs, rest)) :
    elements (bound + 1) depth ts = some (x :: xs, rest) := by
  rw [elements, h]
  change (elements bound depth us).bind _ = _
  rw [hxs]
  rfl

theorem members_last (h : value bound depth ts = some (x, .closeObject :: rest)) :
    members (bound + 1) depth (.text name :: .colon :: ts) = some ([(name, x)], rest) := by
  rw [members, h]
  rfl

theorem members_comma (h : value bound depth ts = some (x, .comma :: us))
    (hms : members bound depth us = some (ms, rest)) :
    members (bound + 1) depth (.text name :: .colon :: ts) = some ((name, x) :: ms, rest) := by
  rw [members, h]
  change (members bound depth us).bind _ = _
  rw [hms]
  rfl

/-- The tokens are read as the value, within a bound of two calls for each of them. -/
def Reads (depth : Nat) (json : Json) : Prop :=
  ∀ bound rest, 2 * json.tokens.length ≤ bound + 1 →
    value bound depth (json.tokens ++ rest) = some (json, rest)

theorem reads_token {t : Token} (htokens : json.tokens = [t])
    (hvalue : ∀ bound rest, value (bound + 1) depth (t :: rest) = some (json, rest)) :
    Reads depth json := by
  intro bound rest hbound
  rw [htokens] at hbound ⊢
  rw [List.length_singleton] at hbound
  obtain ⟨bound, rfl⟩ := Nat.exists_eq_add_one_of_ne_zero (by omega : bound ≠ 0)
  exact hvalue bound rest

theorem elements_of_reads (hne : xs ≠ []) (h : ∀ x ∈ xs, Reads depth x)
    (hbound : 2 * ([Token.comma].intercalate (xs.map tokens)).length < bound) :
    elements bound depth ([Token.comma].intercalate (xs.map tokens) ++ .closeArray :: rest) =
      some (xs, rest) := by
  induction xs generalizing bound with
  | nil => exact absurd rfl hne
  | cons x xs ih =>
      obtain ⟨bound, rfl⟩ := Nat.exists_eq_add_one_of_ne_zero (Nat.ne_zero_of_lt hbound)
      obtain ⟨hx, hxs⟩ := List.forall_mem_cons.mp h
      cases xs with
      | nil =>
          rw [List.map_singleton, List.intercalate_singleton] at hbound ⊢
          exact elements_last (hx bound _ (by omega))
      | cons y ys =>
          rw [List.map_cons, List.map_cons, List.intercalate_cons_cons, ← List.map_cons] at hbound ⊢
          rw [List.length_append, List.length_append, List.length_singleton] at hbound
          rw [List.append_assoc, List.append_assoc]
          exact elements_comma (hx bound _ (by omega)) (ih (List.cons_ne_nil y ys) hxs (by omega))

theorem members_of_reads (hne : ms ≠ []) (h : ∀ m ∈ ms, Reads depth m.2)
    (hbound : 2 * ([Token.comma].intercalate (ms.map memberToken)).length < bound) :
    members bound depth ([Token.comma].intercalate (ms.map memberToken) ++ .closeObject :: rest) =
      some (ms, rest) := by
  induction ms generalizing bound with
  | nil => exact absurd rfl hne
  | cons m ms ih =>
      obtain ⟨bound, rfl⟩ := Nat.exists_eq_add_one_of_ne_zero (Nat.ne_zero_of_lt hbound)
      obtain ⟨hm, hms⟩ := List.forall_mem_cons.mp h
      cases ms with
      | nil =>
          rw [List.map_singleton, List.intercalate_singleton] at hbound ⊢
          exact members_last (hm bound _ (by rw [length_memberToken] at hbound; omega))
      | cons m' ms' =>
          rw [List.map_cons, List.map_cons, List.intercalate_cons_cons, ← List.map_cons] at hbound ⊢
          rw [List.length_append, List.length_append, List.length_singleton] at hbound
          rw [List.append_assoc, List.append_assoc]
          exact members_comma (hm bound _ (by rw [length_memberToken] at hbound; omega))
            (ih (List.cons_ne_nil m' ms') hms (by omega))

theorem reads_array (h : ∀ x ∈ xs, Reads depth x) : Reads (depth + 1) (.array xs) := by
  intro bound rest hbound
  rw [tokens, elementTokens_eq_map] at hbound ⊢
  simp only [List.length_append, List.length_cons, List.length_nil] at hbound
  obtain ⟨bound, rfl⟩ := Nat.exists_eq_add_one_of_ne_zero (by omega : bound ≠ 0)
  rw [List.cons_append, List.cons_append, List.append_assoc]
  by_cases hxs : xs = []
  · subst hxs
    rfl
  · exact value_openArray (elements_of_reads hxs h (by omega))

theorem reads_object (h : ∀ m ∈ ms, Reads depth m.2) : Reads (depth + 1) (.object ms) := by
  intro bound rest hbound
  rw [tokens, memberTokens_eq_map] at hbound ⊢
  simp only [List.length_append, List.length_cons, List.length_nil] at hbound
  obtain ⟨bound, rfl⟩ := Nat.exists_eq_add_one_of_ne_zero (by omega : bound ≠ 0)
  rw [List.cons_append, List.cons_append, List.append_assoc]
  by_cases hms : ms = []
  · subst hms
    rfl
  · exact value_openObject (members_of_reads hms h (by omega))

end Parser

theorem Legible.reads (h : Legible depth json) : Parser.Reads depth json := by
  induction h with
  | null => exact Parser.reads_token rfl fun _ _ => rfl
  | bool b => exact Parser.reads_token rfl fun _ _ => rfl
  | integer hlower hupper => exact Parser.reads_token rfl fun _ _ => rfl
  | float h => exact Parser.reads_token rfl fun _ _ => rfl
  | text s => exact Parser.reads_token rfl fun _ _ => rfl
  | array h ih => exact Parser.reads_array ih
  | object h ih => exact Parser.reads_object ih

/-! ### The whole text -/

/-- A value is read back from its text, also if blanks follow. This is all that is used of the
reader and the printer together. -/
theorem Legible.parse?_pretty (h : Legible maxDepth json) (after : String)
    (hafter : ∀ c ∈ after.toList, Token.isBlank c = true) :
    parse? (json.pretty ++ after) = some json := by
  have hscans : Scans (json.pretty ++ after).toList json.tokens := by
    have hblank : Scans after.toList [] := by simpa using Token.scans_nil.blanks hafter
    simpa [pretty] using h.cuts 0 after.toList [] (Token.ends_of_forall_isBlank hafter) hblank
  have htokens : tokens? (json.pretty ++ after) = some json.tokens := hscans _ (Nat.le_refl _)
  have hvalue := h.reads (2 * json.tokens.length + 1) [] (by omega)
  rw [List.append_nil] at hvalue
  simp [parse?, htokens, hvalue]

end Schematic.Json
