import Mathlib.Tactic.Common
import Schematic.Json.Numeral

namespace Schematic.Json.Numeral

/-- No numeral that stands before the text goes on with it. A numeral is read alike in front of all
such texts. -/
def Ends (rest : List Char) : Prop :=
  ∀ c cs, rest = c :: cs → digit? c = none ∧ c ≠ '.' ∧ c ≠ 'e' ∧ c ≠ 'E'

variable {cs rest left : List Char} {json : Json} {negative : Bool} {significand : Nat}
  {exponent : Int} {skipped : List Nat}

theorem ends_nil : Ends [] := by
  intro c cs h
  cases h

theorem digits_of_ends (h : Ends rest) : digits rest = ([], rest) := by
  cases rest with
  | nil => rfl
  | cons c cs => rw [digits, (h c cs rfl).1]

theorem digits_append_of_nil (h : (digits cs).2 = []) (rest : List Char) :
    digits (cs ++ rest) = ((digits cs).1 ++ (digits rest).1, (digits rest).2) := by
  induction cs with
  | nil => rfl
  | cons c cs ih =>
      rw [digits] at h
      rw [List.cons_append, digits, digits]
      cases hc : digit? c with
      | none =>
          rw [hc] at h
          cases h
      | some d =>
          rw [hc] at h
          rw [ih h]
          rfl

theorem digits_append (h : Ends rest) (cs : List Char) :
    digits (cs ++ rest) = ((digits cs).1, (digits cs).2 ++ rest) := by
  induction cs with
  | nil => exact digits_of_ends h
  | cons c cs ih =>
      rw [List.cons_append, digits, digits]
      cases digit? c with
      | none => rfl
      | some d => rw [ih]

def signed? (negative : Bool) (cs : List Char) : Option (Int × List Char) :=
  match digits cs with
  | ([], _) => none
  | (ds, rest) => some (if negative then -(ofDigits ds : Int) else ofDigits ds, rest)

theorem signed?_append (h : Ends rest) {e : Int} (he : signed? negative cs = some (e, left)) :
    signed? negative (cs ++ rest) = some (e, left ++ rest) := by
  unfold signed? at he ⊢
  rw [digits_append h]
  split at he
  · cases he
  · rename_i ds rest' hne hdigits
    cases he
    rw [hdigits]
    cases ds with
    | nil => exact absurd hdigits (by simp at hne)
    | cons d ds => rfl

theorem exponent?_cons {c : Char} (hplus : c ≠ '+') (hminus : c ≠ '-') :
    exponent? (c :: cs) = signed? false (c :: cs) := by
  unfold exponent? signed?
  split
  rename_i heq
  split at heq <;> grind

theorem exponent?_append (h : Ends rest) {e : Int} (he : exponent? cs = some (e, left)) :
    exponent? (cs ++ rest) = some (e, left ++ rest) := by
  cases cs with
  | nil => cases he
  | cons c cs =>
      by_cases hplus : c = '+'
      · subst hplus
        change signed? false cs = some (e, left) at he
        exact signed?_append h he
      · by_cases hminus : c = '-'
        · subst hminus
          change signed? true cs = some (e, left) at he
          exact signed?_append h he
        · rw [exponent?_cons hplus hminus] at he
          rw [List.cons_append, exponent?_cons hplus hminus]
          exact signed?_append h he

theorem float?_eq_some_iff : float? negative significand exponent rest = some (json, left) ↔
    ∃ x, scale? significand exponent = some x ∧
      json = .float (if negative then x.negate else x) ∧ left = rest := by
  unfold float?
  cases scale? significand exponent <;> simp [eq_comm]

theorem float?_append (hread : float? negative significand exponent cs = some (json, left)) :
    float? negative significand exponent (cs ++ rest) = some (json, left ++ rest) := by
  obtain ⟨x, hx, rfl, rfl⟩ := float?_eq_some_iff.mp hread
  exact float?_eq_some_iff.mpr ⟨x, hx, rfl, rfl⟩

theorem afterFraction?_of_ends (h : Ends rest) :
    afterFraction? negative significand exponent rest =
      float? negative significand exponent rest := by
  unfold afterFraction?
  split
  · exact absurd rfl (h _ _ rfl).2.2.1
  · exact absurd rfl (h _ _ rfl).2.2.2
  · rfl

theorem afterFraction?_cons {c : Char} (hlower : c ≠ 'e') (hupper : c ≠ 'E') :
    afterFraction? negative significand exponent (c :: cs) =
      float? negative significand exponent (c :: cs) := by
  unfold afterFraction?
  split <;> simp_all

theorem marked_append (h : Ends rest)
    (hread : (exponent? cs).bind (fun p => float? negative significand (exponent + p.1) p.2) =
      some (json, left)) :
    (exponent? (cs ++ rest)).bind (fun p => float? negative significand (exponent + p.1) p.2) =
      some (json, left ++ rest) := by
  obtain ⟨⟨e, left'⟩, he, hfloat⟩ := Option.bind_eq_some_iff.mp hread
  rw [exponent?_append h he]
  exact float?_append hfloat

theorem afterFraction?_append (h : Ends rest)
    (hread : afterFraction? negative significand exponent cs = some (json, left)) :
    afterFraction? negative significand exponent (cs ++ rest) = some (json, left ++ rest) := by
  cases cs with
  | nil =>
      rw [List.nil_append, afterFraction?_of_ends h]
      exact float?_append hread
  | cons c cs =>
      by_cases hlower : c = 'e'
      · subst hlower
        exact marked_append h hread
      · by_cases hupper : c = 'E'
        · subst hupper
          exact marked_append h hread
        · rw [afterFraction?_cons hlower hupper] at hread
          rw [List.cons_append, afterFraction?_cons hlower hupper]
          exact float?_append hread

theorem fraction?_append (h : Ends rest)
    (hread : fraction? negative significand exponent cs = some (json, left)) :
    fraction? negative significand exponent (cs ++ rest) = some (json, left ++ rest) := by
  unfold fraction? at hread ⊢
  rw [digits_append h]
  cases hdigits : digits cs with
  | mk ds after =>
      rw [hdigits] at hread
      cases ds with
      | nil => cases hread
      | cons d ds => exact afterFraction?_append h hread

/-- An integer part that nothing follows: it stands for itself if no digit of it was skipped. -/
def whole? (negative : Bool) (significand : Nat) (skipped : List Nat) (cs : List Char) :
    Option (Json × List Char) :=
  if skipped.isEmpty then some (integer negative significand, cs)
  else float? negative significand skipped.length cs

theorem whole?_append (hread : whole? negative significand skipped cs = some (json, left)) :
    whole? negative significand skipped (cs ++ rest) = some (json, left ++ rest) := by
  cases skipped with
  | nil =>
      cases hread
      rfl
  | cons d ds =>
      change float? negative significand (d :: ds).length cs = some (json, left) at hread
      exact float?_append hread

/-- What follows the digits of the integer part, of which those that do not fit are `skipped`. -/
def afterInteger? (negative : Bool) (significand : Nat) (skipped : List Nat) (cs : List Char) :
    Option (Json × List Char) :=
  match cs with
  | '.' :: rest => fraction? negative significand skipped.length rest
  | 'e' :: _ | 'E' :: _ => afterFraction? negative significand skipped.length cs
  | _ => whole? negative significand skipped cs

theorem afterInteger?_of_ends (h : Ends rest) :
    afterInteger? negative significand skipped rest =
      whole? negative significand skipped rest := by
  unfold afterInteger?
  split
  · exact absurd rfl (h _ _ rfl).2.1
  · exact absurd rfl (h _ _ rfl).2.2.1
  · exact absurd rfl (h _ _ rfl).2.2.2
  · rfl

theorem afterInteger?_cons {c : Char} (hpoint : c ≠ '.') (hlower : c ≠ 'e') (hupper : c ≠ 'E') :
    afterInteger? negative significand skipped (c :: cs) =
      whole? negative significand skipped (c :: cs) := by
  unfold afterInteger?
  split <;> simp_all

theorem afterInteger?_append (h : Ends rest)
    (hread : afterInteger? negative significand skipped cs = some (json, left)) :
    afterInteger? negative significand skipped (cs ++ rest) = some (json, left ++ rest) := by
  cases cs with
  | nil =>
      rw [List.nil_append, afterInteger?_of_ends h]
      exact whole?_append hread
  | cons c cs =>
      by_cases hpoint : c = '.'
      · subst hpoint
        exact fraction?_append h hread
      · by_cases hlower : c = 'e'
        · subst hlower
          change afterFraction? negative significand skipped.length ('e' :: cs) = _ at hread
          exact afterFraction?_append h hread
        · by_cases hupper : c = 'E'
          · subst hupper
            change afterFraction? negative significand skipped.length ('E' :: cs) = _ at hread
            exact afterFraction?_append h hread
          · rw [afterInteger?_cons hpoint hlower hupper] at hread
            rw [List.cons_append, afterInteger?_cons hpoint hlower hupper]
            exact whole?_append hread

theorem unsigned?_eq : unsigned? negative cs =
    match digits cs with
    | ([], _) => none
    | (0 :: _ :: _, _) => none
    | (ds, rest) => afterInteger? negative (takeUp 0 ds).1 (takeUp 0 ds).2 rest :=
  rfl

theorem unsigned?_append (h : Ends rest) (hread : unsigned? negative cs = some (json, left)) :
    unsigned? negative (cs ++ rest) = some (json, left ++ rest) := by
  rw [unsigned?_eq] at hread ⊢
  rw [digits_append h]
  split at hread
  · cases hread
  · cases hread
  · rename_i ds after hnone hzeros hdigits
    rw [hdigits]
    split
    · rename_i heq
      cases heq
      exact (hnone rfl).elim
    · rename_i heq
      cases heq
      exact (hzeros _ _ rfl).elim
    · rename_i heq
      cases heq
      exact afterInteger?_append h hread

theorem read?_cons {c : Char} (hminus : c ≠ '-') : read? (c :: cs) = unsigned? false (c :: cs) := by
  unfold read?
  split <;> simp_all

theorem read?_append (h : Ends rest) (hread : read? cs = some (json, left)) :
    read? (cs ++ rest) = some (json, left ++ rest) := by
  unfold read? at hread
  split at hread
  · exact unsigned?_append h hread
  · rename_i hminus
    cases cs with
    | nil => cases hread
    | cons c cs =>
        have hc : c ≠ '-' := fun hc => hminus cs (by rw [hc])
        rw [List.cons_append, read?_cons hc]
        exact unsigned?_append h hread

/-! ### Integers -/

theorem digit?_digitChar {d : Nat} (h : d < 10) : digit? (Nat.digitChar d) = some d :=
  (by decide : ∀ d < 10, digit? (Nat.digitChar d) = some d) d h

theorem le_foldl (n : Nat) (ds : List Nat) : n ≤ ds.foldl (fun n d => n * 10 + d) n := by
  induction ds generalizing n with
  | nil => exact Nat.le_refl n
  | cons d ds ih =>
      have hn : n ≤ n * 10 + d := by omega
      exact Nat.le_trans hn (ih (n * 10 + d))

theorem takeUp_of_le {n : Nat} {ds : List Nat}
    (h : ds.foldl (fun n d => n * 10 + d) n ≤ limit) :
    takeUp n ds = (ds.foldl (fun n d => n * 10 + d) n, []) := by
  induction ds generalizing n with
  | nil => rfl
  | cons d ds ih =>
      rw [takeUp, if_pos (Nat.le_trans (le_foldl _ ds) h)]
      exact ih h

theorem exists_digits_toDigits (n : Nat) : ∃ d ds, digits (Nat.toDigits 10 n) = (d :: ds, []) ∧
    ofDigits (d :: ds) = n ∧ (d = 0 → ds = []) := by
  induction n using Nat.strongRecOn with
  | ind n ih =>
      by_cases hn : n < 10
      · refine ⟨n, [], ?_, ?_, fun _ => rfl⟩
        · rw [Nat.toDigits_of_lt_base hn, digits, digit?_digitChar hn]
          rfl
        · simp [ofDigits]
      · obtain ⟨d, ds, hdigits, hvalue, hzero⟩ := ih (n / 10) (by omega)
        refine ⟨d, ds ++ [n % 10], ?_, ?_, ?_⟩
        · rw [Nat.toDigits_of_base_le (by decide) (by omega),
            digits_append_of_nil (by rw [hdigits]), hdigits, digits,
            digit?_digitChar (Nat.mod_lt n (by decide))]
          rfl
        · rw [ofDigits, ← List.cons_append, List.foldl_append]
          change ofDigits (d :: ds) * 10 + n % 10 = n
          omega
        · rintro rfl
          obtain rfl := hzero rfl
          -- The digits of `n / 10` are not a lone zero, since `n / 10` is none.
          change 0 = n / 10 at hvalue
          omega

theorem unsigned?_toDigits {n : Nat} (h : n ≤ limit) :
    unsigned? negative (Nat.toDigits 10 n) = some (integer negative n, []) := by
  obtain ⟨d, ds, hdigits, hvalue, hzero⟩ := exists_digits_toDigits n
  have htake : takeUp 0 (d :: ds) = (n, []) := by
    rw [takeUp_of_le (by rwa [← ofDigits, hvalue])]
    exact congrArg (·, []) hvalue
  rw [unsigned?_eq, hdigits]
  split
  · rename_i heq
    cases heq
  · rename_i heq
    cases heq
    cases hzero rfl
  · rename_i heq
    cases heq
    rw [htake, afterInteger?_of_ends ends_nil]
    rfl

theorem read?_toDigits {n : Nat} (h : n ≤ limit) :
    read? (Nat.toDigits 10 n) = some (.integer n, []) := by
  obtain ⟨d, ds, hdigits, -, -⟩ := exists_digits_toDigits n
  have hread : unsigned? false (Nat.toDigits 10 n) = some (.integer n, []) := unsigned?_toDigits h
  cases hcs : Nat.toDigits 10 n with
  | nil =>
      rw [hcs] at hdigits
      cases hdigits
  | cons c cs =>
      rw [hcs] at hdigits hread
      have hc : c ≠ '-' := by
        rintro rfl
        cases hdigits
      rw [read?_cons hc, hread]

theorem toList_toString (n : Int) :
    (toString n).toList = if 0 ≤ n then Nat.toDigits 10 n.toNat
      else '-' :: Nat.toDigits 10 (-n).toNat := by
  rw [Int.toString_eq_repr, Int.repr_eq_if]
  split
  · rw [Nat.toList_repr]
  · rw [String.toList_append, Nat.toList_repr]
    rfl

theorem read?_toString {n : Int} (hlower : -(UInt64.size / 2 : Nat) ≤ n) (hupper : n ≤ limit) :
    read? (toString n).toList = some (.integer n, []) := by
  rw [toList_toString]
  split
  · rename_i hn
    rw [read?_toDigits (by omega), Int.toNat_of_nonneg hn]
  · rename_i hn
    have hsize : UInt64.size / 2 ≤ limit := by decide
    have hread : read? ('-' :: Nat.toDigits 10 (-n).toNat) =
        some (integer true (-n).toNat, []) := unsigned?_toDigits (by omega)
    have hinteger : integer true (-n).toNat = .integer n := by
      rw [integer, if_neg (by decide), if_pos (by omega), Int.toNat_of_nonneg (by omega),
        Int.neg_neg]
    rw [hread, hinteger]

end Schematic.Json.Numeral
