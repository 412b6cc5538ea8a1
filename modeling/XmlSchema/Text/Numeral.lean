/-!
Numbers and their digits. Long numerals are read by joining neighbouring digits, and digits are counted and written by
halves. The main statements are that joined digits denote what the digits denote, and that the digits written for a
number denote it.
-/

namespace XmlSchema.Numeral

/-- The number that digits denote in a base, the lowest digit first. -/
def value (base : Nat) : List Nat → Nat
  | [] => 0
  | d :: ds => d + base * value base ds

/-- Joins digits to digits of the squared base by twos; `joined` have been joined already, the highest first. -/
def joinPairs (base : Nat) (joined : List Nat) : List Nat → List Nat
  | low :: high :: ds => joinPairs base ((low + base * high) :: joined) ds
  | [d] => (d :: joined).reverse
  | [] => joined.reverse

/-- Reads digits, the lowest one first, in at most `levels` rounds of joining. -/
def ofDigits : (levels base : Nat) → List Nat → Nat
  | levels + 1, base, low :: high :: ds => ofDigits levels (base * base) (joinPairs base [] (low :: high :: ds))
  | _, base, ds => value base ds

theorem value_append (base : Nat) (ds es : List Nat) :
    value base (ds ++ es) = value base ds + Nat.pow base ds.length * value base es := by
  induction ds with
  | nil => simp [value]
  | cons d ds ih =>
    have h : Nat.pow base (ds.length + 1) = Nat.pow base ds.length * base := rfl
    rw [List.cons_append, value, ih, value, List.length_cons, h, Nat.mul_add, Nat.mul_comm _ base, Nat.mul_assoc,
      Nat.add_assoc]

theorem value_joinPairs (base : Nat) (joined ds : List Nat) :
    value (base * base) (joinPairs base joined ds) =
      value (base * base) joined.reverse + Nat.pow (base * base) joined.length * value base ds := by
  fun_induction joinPairs base joined ds with
  | case1 joined low high ds ih =>
    have h : Nat.pow (base * base) (joined.length + 1) = Nat.pow (base * base) joined.length * (base * base) := rfl
    rw [ih, List.reverse_cons, value_append, List.length_reverse, List.length_cons, h]
    simp only [value, Nat.mul_zero, Nat.add_zero, Nat.mul_add, Nat.mul_assoc, Nat.add_assoc]
  | case2 joined d => simp [value_append, value]
  | case3 joined => simp [value]

theorem ofDigits_eq (levels base : Nat) (ds : List Nat) : ofDigits levels base ds = value base ds := by
  fun_induction ofDigits levels base ds with
  | case1 base levels low high ds ih =>
    rw [ih, value_joinPairs]
    simp [value]
  | case2 => rfl

/-- The number of decimal digits of a number below the `2 ^ p`th power of ten; zero has none. -/
def digitCountBelow : (p : Nat) → Nat → Nat
  | 0, n => if n = 0 then 0 else 1
  | p + 1, n =>
    let half := Nat.pow 2 p
    let power := Nat.pow 10 half
    if n < power then digitCountBelow p n else half + digitCountBelow p (n / power)

def digitCount (n : Nat) : Nat := digitCountBelow (n.log2.log2 + 1) n

/-- The `2 ^ p` last decimal digits of a number, the highest first, before other digits. -/
def digitsBefore : (p n : Nat) → List Nat → List Nat
  | 0, n, later => n % 10 :: later
  | p + 1, n, later =>
    let power := Nat.pow 10 (Nat.pow 2 p)
    digitsBefore p (n / power) (digitsBefore p (n % power) later)

/-- The decimal digits of a number, the highest first; zero has none. -/
def digits (n : Nat) : List Nat := (digitsBefore (n.log2.log2 + 1) n []).dropWhile (· = 0)

theorem digitsBefore_eq_append (p n : Nat) (later : List Nat) :
    digitsBefore p n later = digitsBefore p n [] ++ later := by
  induction p generalizing n later with
  | zero => rfl
  | succ p ih =>
    simp only [digitsBefore]
    rw [ih (n / _) (digitsBefore p _ later), ih (n % _) later, ih (n / _) (digitsBefore p _ []), List.append_assoc]

theorem length_digitsBefore (p n : Nat) : (digitsBefore p n []).length = Nat.pow 2 p := by
  induction p generalizing n with
  | zero => rfl
  | succ p ih =>
    have h : Nat.pow 2 (p + 1) = Nat.pow 2 p * 2 := rfl
    rw [digitsBefore, digitsBefore_eq_append, List.length_append, ih, ih, h, Nat.mul_two]

theorem value_digitsBefore (p n : Nat) (h : n < Nat.pow 10 (Nat.pow 2 p)) :
    value 10 (digitsBefore p n []).reverse = n := by
  induction p generalizing n with
  | zero =>
    have h : n < 10 := h
    simp [digitsBefore, value, Nat.mod_eq_of_lt h]
  | succ p ih =>
    have hp : Nat.pow 10 (Nat.pow 2 (p + 1)) = Nat.pow 10 (Nat.pow 2 p) * Nat.pow 10 (Nat.pow 2 p) := by
      have h2 : Nat.pow 2 (p + 1) = Nat.pow 2 p * 2 := rfl
      rw [h2, Nat.mul_two]
      exact Nat.pow_add 10 _ _
    have hpos : 0 < Nat.pow 10 (Nat.pow 2 p) := Nat.pow_pos (by decide)
    rw [digitsBefore, digitsBefore_eq_append, List.reverse_append, value_append, List.length_reverse,
      length_digitsBefore, ih _ (Nat.mod_lt _ hpos), ih _ (Nat.div_lt_of_lt_mul (hp ▸ h)), Nat.mod_add_div]

theorem value_dropWhile_zeros (base : Nat) (ds : List Nat) :
    value base (ds.dropWhile (· = 0)).reverse = value base ds.reverse := by
  induction ds with
  | nil => rfl
  | cons d ds ih =>
    by_cases h : d = 0
    · simp [h, ih, value_append, value]
    · simp [h]

theorem lt_pow_of_log2 (n : Nat) : n < Nat.pow 10 (Nat.pow 2 (n.log2.log2 + 1)) := by
  have h : n.log2 < Nat.pow 2 (n.log2.log2 + 1) := Nat.lt_log2_self
  calc n < Nat.pow 2 (n.log2 + 1) := Nat.lt_log2_self
    _ ≤ Nat.pow 2 (Nat.pow 2 (n.log2.log2 + 1)) := Nat.pow_le_pow_right (by decide) h
    _ ≤ Nat.pow 10 (Nat.pow 2 (n.log2.log2 + 1)) := Nat.pow_le_pow_left (by decide) _

theorem value_digits (n : Nat) : value 10 (digits n).reverse = n := by
  rw [digits, value_dropWhile_zeros, value_digitsBefore _ _ (lt_pow_of_log2 n)]

end XmlSchema.Numeral
