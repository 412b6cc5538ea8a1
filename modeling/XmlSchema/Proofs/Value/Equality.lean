import XmlSchema.Proofs.Text.Paths
import XmlSchema.Proofs.Value.Durations

/-!
Equality of values. Every value but the number that is none has a point in its value space, and two values are equal if
they have the same. So a value equals itself if it has a point, and no two ways of writing a point differ.
-/

namespace XmlSchema

/-- The points of all value spaces. Numbers of all kinds share one line, as do months and seconds of durations one plane
with the pairs of whole numbers. -/
inductive Point where
  | text (t : Text)
  | bytes (b : List UInt8)
  | number (q : ℚ)
  | infinite (negative : Bool)
  | pair (first second : ℚ)
  | instant (microseconds : Int)

namespace Number

def point? : Number → Option Point
  | nan => none
  | infinite negative => some (.infinite negative)
  | quotient n d => some (.number (n / d))

/-- The denominator of a quotient is not zero. -/
def IsProper : Number → Prop
  | quotient _ d => 0 < d
  | _ => True

theorem isProper_ofDecimal (d : Decimal) : (ofDecimal d).IsProper := Nat.pow_pos (Nat.zero_lt_succ 9)

theorem isProper_ofDouble (x : Double) : (ofDouble x).IsProper := by
  cases x with
  | nan => trivial
  | infinite negative => trivial
  | finite negative s e =>
      rw [ofDouble]
      split
      · exact Nat.one_pos
      · exact Nat.pow_pos Nat.two_pos

variable {x y : Number}

/-- The order of proper numbers has a tie exactly where their points are the same. -/
theorem order?_eq_some_eq_iff (hx : x.IsProper) (hy : y.IsProper) :
    x.order? y = some .eq ↔ ∃ p, x.point? = some p ∧ y.point? = some p := by
  cases x with
  | nan => simp [order?, point?]
  | infinite a =>
      cases y with
      | nan => simp [order?, point?]
      | infinite b =>
          simp only [order?, point?, Option.some.injEq, exists_eq_left', Point.infinite.injEq]
          cases a <;> cases b <;> decide
      | quotient m e => cases a <;> simp [order?, point?]
  | quotient n d =>
      cases y with
      | nan => simp [order?, point?]
      | infinite b => cases b <;> simp [order?, point?]
      | quotient m e =>
          have hd : (d : ℚ) ≠ 0 := Nat.cast_ne_zero.2 (Nat.ne_of_gt hx)
          have he : (e : ℚ) ≠ 0 := Nat.cast_ne_zero.2 (Nat.ne_of_gt hy)
          simp only [order?, point?, Option.some.injEq, exists_eq_left', Point.number.injEq, compare_eq_iff_eq]
          rw [div_eq_div_iff he hd, eq_comm]
          exact_mod_cast Iff.rfl

theorem order?_isSome (hx : x ≠ nan) (hy : y ≠ nan) : (x.order? y).isSome = true := by
  cases x <;> cases y <;> first | rfl | exact absurd rfl hx | exact absurd rfl hy

end Number

namespace Value

/-- Where a value lies in its value space. -/
def point? (v : Value) : Option Point :=
  match v with
  | text t => some (.text t)
  | bytes b => some (.bytes b)
  | moment t => some (.instant t.instant)
  | pair first second => some (.pair first second)
  | duration months seconds => some (.pair months seconds.toRat)
  | _ => v.number?.bind Number.point?

variable {a b : Value} {x x' y y' : Number}

theorem isProper_number (h : a.number? = some x) : x.IsProper := by
  cases a with
  | boolean | integer =>
      cases h
      exact Nat.one_pos
  | decimal d =>
      cases h
      exact Number.isProper_ofDecimal d
  | double d =>
      cases h
      exact Number.isProper_ofDouble d
  | _ => exact nomatch h

theorem point?_of_number (h : a.number? = some x) : a.point? = x.point? := by
  cases a with
  | boolean | integer | decimal | double =>
      cases h
      rfl
  | _ => exact nomatch h

theorem isNaN_iff (h : a.number? = some x) : a.isNaN = true ↔ x = .nan := by
  cases a with
  | boolean | integer | decimal =>
      cases h
      exact ⟨nofun, nofun⟩
  | double d =>
      cases h
      cases d with
      | nan => exact ⟨fun _ => rfl, fun _ => rfl⟩
      | infinite => exact ⟨nofun, nofun⟩
      | finite negative s e =>
          refine ⟨nofun, fun h => ?_⟩
          rw [Number.ofDouble] at h
          split at h <;> exact nomatch h
  | _ => exact nomatch h

theorem compare_of_number (hx : a.number? = some x) (hy : b.number? = some y) :
    a.compare b = compareNumbers a b x y := by
  cases a with
  | boolean | integer | decimal | double =>
      cases b with
      | boolean | integer | decimal | double =>
        cases hx
        cases hy
        rfl
      | _ => exact nomatch hy
  | _ => exact nomatch hx

theorem equal_iff_of_number (hx : a.number? = some x) (hy : b.number? = some y) :
    a.equal b = true ↔ ∃ p, a.point? = some p ∧ b.point? = some p := by
  rw [point?_of_number hx, point?_of_number hy,
    ← Number.order?_eq_some_eq_iff (isProper_number hx) (isProper_number hy), equal, compare_of_number hx hy]
  by_cases hxnan : x = .nan
  · rw [(isNaN_iff hx).2 hxnan, hxnan]
    exact ⟨nofun, nofun⟩
  by_cases hynan : y = .nan
  · rw [(isNaN_iff hy).2 hynan, hynan]
    simp [Number.order?]
  have hanumber : a.isNaN = false := Bool.not_eq_true _ ▸ mt (isNaN_iff hx).1 hxnan
  have hbnumber : b.isNaN = false := Bool.not_eq_true _ ▸ mt (isNaN_iff hy).1 hynan
  obtain ⟨o, ho⟩ := Option.isSome_iff_exists.1 (Number.order?_isSome hxnan hynan)
  simp [hanumber, hbnumber, compareNumbers, ho]

/-- A number and a value that is none are not compared, and lie apart. -/
theorem not_equal_of_number (hx : a.number? = some x) (hy : b.number? = none) :
    a.equal b = false ∧ b.equal a = false ∧ ∀ p, a.point? = some p → b.point? ≠ some p := by
  have hcompare : a.compare b = .incomparable ∧ b.compare a = .incomparable := by
    cases a with
    | boolean | integer | decimal | double =>
        cases b with
        | boolean | integer | decimal | double => exact nomatch hy
        | _ => exact ⟨rfl, rfl⟩
    | _ => exact nomatch hx
  refine ⟨by simp [equal, hcompare.1], by simp [equal, hcompare.2], fun p hp hother => ?_⟩
  rw [point?_of_number hx] at hp
  cases x with
  | nan => exact nomatch hp
  | infinite | quotient =>
      cases hp
      cases b with
      | boolean | integer | decimal | double => exact nomatch hy
      | _ => cases hother

theorem point?_of_parts (h : a.parts? = some (x, x')) : x.IsProper ∧ x'.IsProper ∧ a.isNaN = false ∧
    ∃ q q', x.point? = some (.number q) ∧ x'.point? = some (.number q') ∧ a.point? = some (.pair q q') := by
  cases a with
  | pair first second =>
      cases h
      exact ⟨Nat.one_pos, Nat.one_pos, rfl, first, second, by simp [Number.ofInt, Number.point?],
        by simp [Number.ofInt, Number.point?], rfl⟩
  | duration months seconds =>
      cases h
      exact ⟨Nat.one_pos, Number.isProper_ofDecimal seconds, rfl, months, seconds.toRat,
        by simp [Number.ofInt, Number.point?], by simp [Number.ofDecimal, Number.point?, Decimal.toRat], rfl⟩
  | _ => cases h

theorem compare_of_parts (hx : a.parts? = some (x, x')) (hy : b.parts? = some (y, y')) :
    a.compare b = match x.order? y with
      | some .eq => .ordered ((x'.order? y').getD .eq)
      | o => .ordered (o.getD .eq) := by
  cases a with
  | pair | duration =>
      cases b with
      | pair | duration =>
          cases hx
          cases hy
          rfl
      | _ => exact nomatch hy
  | _ => exact nomatch hx

theorem equal_iff_of_parts (hx : a.parts? = some (x, x')) (hy : b.parts? = some (y, y')) :
    a.equal b = true ↔ ∃ p, a.point? = some p ∧ b.point? = some p := by
  obtain ⟨hxproper, hxproper', hanumber, q, q', hq, hq', hapoint⟩ := point?_of_parts hx
  obtain ⟨hyproper, hyproper', hbnumber, r, r', hr, hr', hbpoint⟩ := point?_of_parts hy
  have htie : x.order? y = some .eq ↔ r = q := by
    simp [Number.order?_eq_some_eq_iff hxproper hyproper, hq, hr]
  have htie' : x'.order? y' = some .eq ↔ r' = q' := by
    simp [Number.order?_eq_some_eq_iff hxproper' hyproper', hq', hr']
  have hsome : (x.order? y).isSome = true :=
    Number.order?_isSome (fun h => by simp [h, Number.point?] at hq) fun h => by simp [h, Number.point?] at hr
  have hsome' : (x'.order? y').isSome = true :=
    Number.order?_isSome (fun h => by simp [h, Number.point?] at hq') fun h => by simp [h, Number.point?] at hr'
  obtain ⟨o, ho⟩ := Option.isSome_iff_exists.1 hsome
  obtain ⟨o', ho'⟩ := Option.isSome_iff_exists.1 hsome'
  rw [ho, Option.some.injEq] at htie
  rw [ho', Option.some.injEq] at htie'
  -- the second parts count only where the first are tied
  have hequal : a.equal b = true ↔ o = .eq ∧ o' = .eq := by
    rw [equal, compare_of_parts hx hy, hanumber, hbnumber, ho, ho']
    cases o <;> simp
  rw [hequal, htie, htie', hapoint, hbpoint]
  simp

/-- A text equals no value but itself. -/
theorem equal_text {t : Text} {v : Value} : (text t).equal v = true ↔ v = text t := by
  cases v with
  | text s =>
      have hcompare : (text t).compare (text s) = .ordered (Text.order t s) := rfl
      simp only [equal, isNaN, Bool.not_false, Bool.true_and, hcompare, decide_eq_true_eq, Comparison.ordered.injEq,
        Text.order_eq_eq_iff, text.injEq]
      exact eq_comm
  | double x => cases x <;> simp [equal, compare, number?, parts?, isNaN]
  | _ => simp [equal, compare, number?, parts?, isNaN]

theorem orderBytes_eq_eq_iff {s t : List UInt8} : orderBytes s t = .eq ↔ s = t := by
  induction s generalizing t with
  | nil => cases t <;> simp [orderBytes]
  | cons a s ih =>
      cases t with
      | nil => simp [orderBytes]
      | cons b t =>
          rw [orderBytes]
          split
          · next h => simp [UInt8.ne_of_lt h]
          split
          · next h => simp [(UInt8.ne_of_lt h).symm]
          · next hlt hgt => simp [UInt8.le_antisymm (UInt8.not_lt.1 hgt) (UInt8.not_lt.1 hlt), ih]

/-- Two values are equal if they lie at one point. -/
theorem equal_iff : a.equal b = true ↔ ∃ p, a.point? = some p ∧ b.point? = some p := by
  cases hx : a.number? with
  | some x =>
      cases hy : b.number? with
      | some y => exact equal_iff_of_number hx hy
      | none =>
          obtain ⟨hequal, _, hapart⟩ := not_equal_of_number hx hy
          rw [hequal]
          exact ⟨nofun, fun ⟨p, ha, hb⟩ => absurd hb (hapart p ha)⟩
  | none =>
      cases hy : b.number? with
      | some y =>
          obtain ⟨_, hequal, hapart⟩ := not_equal_of_number hy hx
          rw [hequal]
          exact ⟨nofun, fun ⟨p, ha, hb⟩ => absurd ha (hapart p hb)⟩
      | none =>
          -- pairs and durations are compared part by part, and all that is left only with its own kind
          cases a with
          | boolean | integer | decimal | double => exact nomatch hx
          | pair | duration =>
              cases b with
              | boolean | integer | decimal | double => exact nomatch hy
              | pair | duration => exact equal_iff_of_parts rfl rfl
              | _ => simp [equal, compare, number?, parts?, point?]
          | text | bytes | moment =>
              cases b with
              | boolean | integer | decimal | double => exact nomatch hy
              | _ =>
                  simp [equal, isNaN, compare, number?, parts?, point?, Text.order_eq_eq_iff.trans eq_comm,
                    orderBytes_eq_eq_iff.trans eq_comm, compare_eq_iff_eq.trans eq_comm]

theorem point?_eq_none_iff {v : Value} : v.point? = none ↔ v = .double .nan := by
  cases v with
  | double x =>
      cases x with
      | nan => exact ⟨fun _ => rfl, fun _ => rfl⟩
      | infinite => exact ⟨nofun, nofun⟩
      | finite negative s e =>
          refine ⟨fun h => ?_, nofun⟩
          rw [point?_of_number rfl, Number.ofDouble] at h
          split at h <;> exact nomatch h
  | _ => exact ⟨nofun, nofun⟩

theorem equal_self_iff {v : Value} : v.equal v = true ↔ v ≠ .double .nan := by
  rw [equal_iff, Ne, ← point?_eq_none_iff, ← Ne, Option.ne_none_iff_exists']
  simp only [and_self]

end Value

end XmlSchema
