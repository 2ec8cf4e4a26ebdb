namespace Schematic.Hex

def digit? (c : Char) : Option Nat :=
  if '0' ≤ c ∧ c ≤ '9' then some (c.toNat - '0'.toNat)
  else if 'a' ≤ c ∧ c ≤ 'f' then some (c.toNat - 'a'.toNat + 10)
  else if 'A' ≤ c ∧ c ≤ 'F' then some (c.toNat - 'A'.toNat + 10)
  else none

def value? (cs : List Char) : Option Nat :=
  cs.foldlM (fun n c => (digit? c).map (16 * n + ·)) 0

/-- The last `width` digits of a number, with zeros in front where it has fewer. -/
def text : Nat → Nat → List Char
  | 0, _ => []
  | width + 1, n => text width (n / 16) ++ [Nat.digitChar (n % 16)]

private theorem digit?_digitChar_of_lt {d : Nat} (h : d < 16) :
    digit? (Nat.digitChar d) = some d :=
  (by decide : ∀ d < 16, digit? (Nat.digitChar d) = some d) d h

theorem value?_text (width n : Nat) : value? (text width n) = some (n % Nat.pow 16 width) := by
  induction width generalizing n with
  | zero => simp [text, value?, Nat.pow, Nat.mod_one]
  | succ width ih =>
      have hd : n % 16 < 16 := Nat.mod_lt _ (by decide)
      simp only [value?] at ih
      simp only [text, value?, List.foldlM_append, ih, Option.bind_eq_bind, Option.bind_some,
        List.foldlM_cons, List.foldlM_nil, digit?_digitChar_of_lt hd, Option.map_some,
        Option.pure_def]
      change _ = some (n % (Nat.pow 16 width * 16))
      rw [Nat.mul_comm (Nat.pow 16 width), Nat.mod_mul, Nat.add_comm]

end Schematic.Hex
