import Mathlib.Tactic.Common
import Schematic.Json.Printer
import Schematic.Json.Token
import Schematic.Proofs.Json.Numeral

namespace Schematic.Json.Token

open Numeral (Ends)

variable {c : Char} {cs rest : List Char} {ts : List Token} {json : Json}

/-! ### Strings -/

theorem escape_cases (c : Char) :
    (∃ d, escape c = ['\\', d] ∧ d ≠ 'u' ∧ escape? d = some c) ∨
      (escape c = '\\' :: 'u' :: Hex.text 4 c.toNat ∧ c.toNat < 0x20) ∨
      (escape c = [c] ∧ c ≠ '"' ∧ c ≠ '\\' ∧ ¬c.toNat < 0x20) := by
  unfold escape
  split
  · exact .inl ⟨_, rfl, by decide, rfl⟩
  · exact .inl ⟨_, rfl, by decide, rfl⟩
  · exact .inl ⟨_, rfl, by decide, rfl⟩
  · exact .inl ⟨_, rfl, by decide, rfl⟩
  · exact .inl ⟨_, rfl, by decide, rfl⟩
  · exact .inl ⟨_, rfl, by decide, rfl⟩
  · exact .inl ⟨_, rfl, by decide, rfl⟩
  · rename_i hquote hbackslash _ _ _ _ _
    by_cases hcontrol : c.toNat < 0x20
    · exact .inr (.inl ⟨if_pos hcontrol, hcontrol⟩)
    · exact .inr (.inr ⟨if_neg hcontrol, hquote, hbackslash, hcontrol⟩)

theorem unit?_toNat (c : Char) : unit? c.toNat = some c := by
  have hvalid : c.toNat < 0xd800 ∨ 0xdfff < c.toNat ∧ c.toNat < 0x110000 := c.valid
  rw [unit?, if_neg (by omega), Char.ofNat_toNat]

theorem character?_unit {code : Nat} (hcode : code < 0x10000) (hunit : unit? code = some c)
    (rest : List Char) :
    character? ('\\' :: 'u' :: Hex.text 4 code ++ rest) = some (c, rest) := by
  have hvalue : Hex.value? (Hex.text 4 code) = some code := by
    rw [Hex.value?_text, Nat.mod_eq_of_lt hcode]
  obtain ⟨w, x, y, z, hdigits⟩ : ∃ w x y z, Hex.text 4 code = [w, x, y, z] := ⟨_, _, _, _, rfl⟩
  rw [hdigits] at hvalue ⊢
  simp [character?, hvalue, hunit]

theorem character?_letter {d : Char} (hd : d ≠ 'u') (hescape : escape? d = some c) :
    character? ('\\' :: d :: rest) = some (c, rest) := by
  unfold character?
  split <;> grind

theorem character?_cons (hcontrol : ¬c.toNat < 0x20) (hbackslash : c ≠ '\\') :
    character? (c :: rest) = some (c, rest) := by
  unfold character?
  split <;> simp_all

theorem character?_escape (c : Char) (rest : List Char) :
    character? (escape c ++ rest) = some (c, rest) := by
  rcases escape_cases c with ⟨d, h, hd, hescape⟩ | ⟨h, hcontrol⟩ | ⟨h, -, hbackslash, hcontrol⟩
  · rw [h]
    exact character?_letter hd hescape
  · rw [h]
    exact character?_unit (by omega) (unit?_toNat c) rest
  · rw [h]
    exact character?_cons hcontrol hbackslash

theorem escape_eq_cons (c : Char) : ∃ d ds, escape c = d :: ds ∧ d ≠ '"' := by
  rcases escape_cases c with ⟨d, h, -, -⟩ | ⟨h, -⟩ | ⟨h, hquote, -, -⟩
  · exact ⟨_, _, h, by decide⟩
  · exact ⟨_, _, h, by decide⟩
  · exact ⟨_, _, h, hquote⟩

theorem string?_succ {bound : Nat} (hquote : c ≠ '"') :
    string? (bound + 1) (c :: cs) = (do
      let (x, rest) ← character? (c :: cs)
      let (xs, rest) ← string? bound rest
      return (x :: xs, rest)) := by
  rw [string?]
  simpa using hquote

theorem string?_escape (cs rest : List Char) {bound : Nat} (hbound : cs.length < bound) :
    string? bound (cs.flatMap escape ++ '"' :: rest) = some (cs, rest) := by
  induction cs generalizing bound with
  | nil =>
      obtain ⟨bound, rfl⟩ := Nat.exists_eq_add_one_of_ne_zero (Nat.ne_of_gt hbound)
      rfl
  | cons c cs ih =>
      obtain ⟨bound, rfl⟩ := Nat.exists_eq_add_one_of_ne_zero (Nat.ne_zero_of_lt hbound)
      obtain ⟨d, ds, hescape, hquote⟩ := escape_eq_cons c
      have hcharacter := character?_escape c (cs.flatMap escape ++ '"' :: rest)
      rw [hescape, List.cons_append] at hcharacter
      rw [List.flatMap_cons, List.append_assoc, hescape, List.cons_append, string?_succ hquote,
        hcharacter]
      have hcs : string? bound (cs.flatMap escape ++ '"' :: rest) = some (cs, rest) :=
        ih (Nat.lt_of_succ_lt_succ hbound)
      simp only [Option.bind_eq_bind, Option.bind_some, hcs, Option.pure_def]

theorem length_le_length_flatMap_escape (cs : List Char) :
    cs.length ≤ (cs.flatMap escape).length := by
  induction cs with
  | nil => exact Nat.le_refl 0
  | cons c cs ih =>
      obtain ⟨d, ds, hescape, -⟩ := escape_eq_cons c
      rw [List.flatMap_cons, List.length_append, hescape, List.length_cons, List.length_cons]
      omega

theorem next?_quote : next? ('"' :: rest) =
    (string? rest.length rest).map fun p => (.text (String.ofList p.1), p.2) := by
  cases h : string? rest.length rest <;> simp [next?, h]

theorem next?_text (s : String) (rest : List Char) :
    next? ('"' :: (s.toList.flatMap escape ++ '"' :: rest)) = some (.text s, rest) := by
  have hbound : s.toList.length < (s.toList.flatMap escape ++ '"' :: rest).length := by
    have := length_le_length_flatMap_escape s.toList
    rw [List.length_append, List.length_cons]
    omega
  rw [next?_quote, string?_escape s.toList rest hbound, Option.map_some, String.ofList_toList]

/-! ### Numerals -/

theorem next?_of_read? (h : Numeral.read? cs = some (json, rest)) :
    next? cs = some (.value json, rest) := by
  unfold next?
  split
  · cases h
  · cases h
  · cases h
  · cases h
  · cases h
  · cases h
  · cases h
  · cases h
  · cases h
  · cases h
  · rw [h]
    rfl

theorem isBlank_of_read? (h : Numeral.read? (c :: cs) = some (json, rest)) : isBlank c = false := by
  by_contra hblank
  simp only [isBlank, Bool.not_eq_false, Bool.or_eq_true, beq_iff_eq] at hblank
  rcases hblank with ((rfl | rfl) | rfl) | rfl <;> cases h

theorem ends_comma : Ends (',' :: cs) := by
  rintro c cs ⟨⟩
  exact ⟨by decide, by decide, by decide, by decide⟩

theorem ends_of_isBlank (h : isBlank c = true) : Ends (c :: cs) := by
  rintro c cs ⟨⟩
  simp only [isBlank, Bool.or_eq_true, beq_iff_eq] at h
  rcases h with ((rfl | rfl) | rfl) | rfl <;>
    exact ⟨by decide, by decide, by decide, by decide⟩

theorem ends_of_forall_isBlank (h : ∀ c ∈ cs, isBlank c = true) : Ends cs := by
  cases cs with
  | nil => exact Numeral.ends_nil
  | cons c cs => exact ends_of_isBlank (h c List.mem_cons_self)

/-! ### Texts -/

@[simp] theorem toList_lineStart (level : Nat) :
    (lineStart level).toList = '\n' :: List.replicate (2 * level) ' ' := by
  simp [lineStart]

/-- The tokens that a text is cut into, under any bound that is large enough. -/
def Scans (cs : List Char) (ts : List Token) : Prop :=
  ∀ bound, cs.length ≤ bound → scan bound cs = some ts

theorem scans_nil : Scans [] [] := by
  intro bound hbound
  cases bound <;> rfl

namespace Scans

theorem blank (h : Scans rest ts) (hblank : isBlank c = true) : Scans (c :: rest) ts := by
  intro bound hbound
  obtain ⟨bound, rfl⟩ := Nat.exists_eq_add_one_of_ne_zero (Nat.ne_zero_of_lt hbound)
  rw [scan, if_pos hblank]
  exact h bound (Nat.le_of_succ_le_succ hbound)

theorem token {t : Token} (h : Scans rest ts) (hblank : isBlank c = false)
    (hnext : next? (c :: cs) = some (t, rest)) (hlength : rest.length ≤ cs.length) :
    Scans (c :: cs) (t :: ts) := by
  intro bound hbound
  obtain ⟨bound, rfl⟩ := Nat.exists_eq_add_one_of_ne_zero (Nat.ne_zero_of_lt hbound)
  have hrest : scan bound rest = some ts :=
    h bound (Nat.le_trans hlength (Nat.le_of_succ_le_succ hbound))
  rw [scan, hblank, if_neg (by decide), hnext]
  simp only [Option.bind_eq_bind, Option.bind_some, hrest, Option.pure_def]

theorem openArray (h : Scans rest ts) : Scans ('[' :: rest) (.openArray :: ts) :=
  h.token rfl rfl (Nat.le_refl _)

theorem closeArray (h : Scans rest ts) : Scans (']' :: rest) (.closeArray :: ts) :=
  h.token rfl rfl (Nat.le_refl _)

theorem openObject (h : Scans rest ts) : Scans ('\x7b' :: rest) (.openObject :: ts) :=
  h.token rfl rfl (Nat.le_refl _)

theorem closeObject (h : Scans rest ts) : Scans ('\x7d' :: rest) (.closeObject :: ts) :=
  h.token rfl rfl (Nat.le_refl _)

theorem comma (h : Scans rest ts) : Scans (',' :: rest) (.comma :: ts) :=
  h.token rfl rfl (Nat.le_refl _)

theorem colon (h : Scans rest ts) : Scans (':' :: rest) (.colon :: ts) :=
  h.token rfl rfl (Nat.le_refl _)

theorem null (h : Scans rest ts) : Scans ("null".toList ++ rest) (.value .null :: ts) :=
  h.token rfl rfl (by simp; omega)

theorem bool (h : Scans rest ts) (b : Bool) :
    Scans ((if b then "true" else "false").toList ++ rest) (.value (.bool b) :: ts) := by
  cases b
  · exact h.token rfl rfl (by simp; omega)
  · exact h.token rfl rfl (by simp; omega)

theorem numeral (h : Scans rest ts) (hends : Ends rest)
    (hread : Numeral.read? cs = some (json, [])) : Scans (cs ++ rest) (.value json :: ts) := by
  cases cs with
  | nil => cases hread
  | cons c cs =>
      exact h.token (isBlank_of_read? hread) (next?_of_read? (Numeral.read?_append hends hread))
        (by simp)

theorem text (h : Scans rest ts) (s : String) :
    Scans ((writeText s).toList ++ rest) (.text s :: ts) := by
  have htext : (writeText s).toList ++ rest = '"' :: (s.toList.flatMap escape ++ '"' :: rest) := by
    simp [writeText]
  rw [htext]
  exact h.token rfl (next?_text s rest) (by simp; omega)

theorem blanks (h : Scans rest ts) (hblank : ∀ c ∈ cs, isBlank c = true) :
    Scans (cs ++ rest) ts := by
  induction cs with
  | nil => exact h
  | cons c cs ih =>
      obtain ⟨hc, hcs⟩ := List.forall_mem_cons.mp hblank
      exact (ih hcs).blank hc

theorem lineStart (h : Scans rest ts) (level : Nat) :
    Scans ((Json.lineStart level).toList ++ rest) ts := by
  refine h.blanks fun c hc => ?_
  rw [toList_lineStart, List.mem_cons, List.mem_replicate] at hc
  rcases hc with rfl | ⟨-, rfl⟩ <;> rfl

end Scans

end Schematic.Json.Token
