import XmlSchema.Proofs.Pattern.Matching
import XmlSchema.Proofs.SimpleType.Checks
import XmlSchema.Proofs.Value.Integers
import XmlSchema.SimpleType.Builtin

/-!
The built-in integer types. Each accepts the numerals of the integers in one interval: the pattern admits signs and
digits, the number is read exactly, and every type of the family adds bounds to those of its base.
-/

namespace XmlSchema

/-! ### Numerals as a pattern -/

namespace Pattern

open Lexical

def integerPattern : Pattern :=
  ⟨"[\\-+]?[0-9]+", [.sequence [.repeated (.set [⟨0x2B, 0x2B⟩, ⟨0x2D, 0x2D⟩]) .optional,
    .repeated (.set [⟨0x30, 0x39⟩]) .plus]]⟩

theorem compile_integerPattern : compile "[\\-+]?[0-9]+" = .ok integerPattern := by cbv

theorem mem_sign {c : CodePoint} :
    c ∈ CodePointSet.elements [⟨0x2B, 0x2B⟩, ⟨0x2D, 0x2D⟩] ↔ c = '+' ∨ c = '-' := by
  have hval (d : CodePoint) (n : Nat) (hd : d.val = n) : (n ≤ c.val ∧ c.val ≤ n) ↔ c = d := by
    subst hd
    rw [← le_antisymm_iff, eq_comm]
    exact ⟨CodePoint.ext_val, fun h => h ▸ rfl⟩
  rw [CodePointSet.elements_cons, CodePointSet.elements_singleton]
  exact or_congr (hval _ _ rfl) (hval _ _ rfl)

theorem mem_digits {c : CodePoint} : c ∈ CodePointSet.elements [⟨0x30, 0x39⟩] ↔ c.isAsciiDigit = true := by
  rw [CodePointSet.elements_singleton]
  simp [CodePoint.isAsciiDigit]

theorem mem_integerLanguage {t : Text} :
    t ∈ copies ⟨0, some 1⟩ (single (CodePointSet.elements [⟨0x2B, 0x2B⟩, ⟨0x2D, 0x2D⟩])) *
      copies ⟨1, none⟩ (single (CodePointSet.elements [⟨0x30, 0x39⟩])) ↔ ∃ i, WritesInteger t i := by
  rw [Language.mem_mul]
  simp only [mem_copies_single, mem_sign, mem_digits]
  constructor
  · rintro ⟨sign, ⟨hsign, hmem⟩, ds, ⟨hds, hdigits⟩, rfl⟩
    have hnumeral : IsNumeral ds := ⟨List.ne_nil_of_length_pos hds.1, hdigits⟩
    cases sign with
    | nil => exact ⟨_, .plain hnumeral⟩
    | cons c sign =>
        obtain rfl : sign = [] := List.length_eq_zero_iff.1 (Nat.le_zero.1 (Nat.le_of_succ_le_succ (hsign.2 1 rfl)))
        rcases hmem c List.mem_cons_self with rfl | rfl
        · exact ⟨_, .plus hnumeral⟩
        · exact ⟨_, .minus hnumeral⟩
  · rintro ⟨i, h⟩
    have hdigits {ds : Text} (hds : IsNumeral ds) :
        Occurs.allows ⟨1, none⟩ ds.length ∧ ∀ c ∈ ds, c.isAsciiDigit = true :=
      ⟨⟨List.length_pos_iff.2 hds.1, fun _ h => nomatch h⟩, hds.2⟩
    have hsign {c : CodePoint} (hc : c = '+' ∨ c = '-') :
        Occurs.allows ⟨0, some 1⟩ [c].length ∧ ∀ d ∈ [c], d = '+' ∨ d = '-' :=
      ⟨⟨Nat.zero_le _, fun _ h => Option.some.inj h ▸ le_rfl⟩, List.forall_mem_singleton.2 hc⟩
    cases h with
    | plain hds => exact ⟨[], ⟨⟨le_rfl, fun _ _ => Nat.zero_le _⟩, fun _ h => nomatch h⟩, t, hdigits hds, rfl⟩
    | plus hds => exact ⟨['+'], hsign (.inl rfl), _, hdigits hds, rfl⟩
    | minus hds => exact ⟨['-'], hsign (.inr rfl), _, hdigits hds, rfl⟩

theorem isMatch_integerPattern {t : Text} : integerPattern.isMatch t = true ↔ ∃ i, WritesInteger t i := by
  have hfits : ∀ b ∈ integerPattern.branches, b.Fits .branch := by
    refine List.forall_mem_singleton.2 (.sequence (List.forall_mem_cons.2 ⟨?_, List.forall_mem_singleton.2 ?_⟩))
    · exact .repeated (.set (by unfold CodePointSet.IsProper CodePointRange.IsProper; decide)) rfl .optional
    · exact .repeated (.set (by unfold CodePointSet.IsProper CodePointRange.IsProper; decide)) rfl .plus
  rw [isMatch_iff (List.cons_ne_nil _ _) hfits, ← mem_integerLanguage]
  simp [integerPattern, languages, Expression.language, Quantifier.range]

end Pattern

/-! ### Whole numbers -/

namespace Decimal

theorem digits?_whole {x y : Decimal} (hscale : x.scale = 0) (h : x.round? = some y) :
    ∃ total, x.digits? = some (total, 0) := by
  have hy : y.scale = 0 := by
    rw [round?] at h
    split at h
    · cases h
    · exact Option.some.inj h ▸ (round_whole hscale).1
  rw [digits?, h, Option.map_some]
  split
  · exact ⟨1, rfl⟩
  · exact ⟨_, congrArg (fun n => some (_, n)) hy⟩

end Decimal

theorem Value.compare_integer (i j : Int) :
    (Value.decimal (.ofInt i)).compare (.decimal (.ofInt j)) = .ordered (Ord.compare i j) := by
  have horder : (Number.ofDecimal (.ofInt i)).order? (.ofDecimal (.ofInt j)) = some (Ord.compare i j) := by
    change some (Ord.compare (i * 1) (j * 1)) = _
    rw [mul_one, mul_one]
  change compareNumbers (.decimal (.ofInt i)) (.decimal (.ofInt j)) (.ofDecimal (.ofInt i)) (.ofDecimal (.ofInt j)) = _
  rw [compareNumbers, horder]

namespace SimpleType

open Lexical

/-! ### Types with one more step -/

/-- A step that leaves white space alone has its problems besides those of the base. -/
theorem check_restriction_iff {name : Option Name} {base : SimpleType} {facets : Facets} {text : Text}
    (hbase : base.variety = .atomic) (hspace : facets.whiteSpace = none) :
    (restriction name base facets).check text = [] ↔ base.check text = [] ∧
      ∀ value, Value.read base.primitiveOf (base.whiteSpace.apply text) = .ok value →
        facets.check (base.whiteSpace.apply text) value
          (Value.length? base.primitiveOf (base.whiteSpace.apply text) value) .length = [] := by
  rw [check_eq_nil_iff_of_atomic hbase, check_eq_nil_iff_of_atomic (t := restriction name base facets) hbase,
    whiteSpace_restriction hspace, chain, primitiveOf]
  simp only [List.forall_mem_append, List.forall_mem_singleton]
  constructor
  · rintro ⟨value, hread, hsteps, hlast⟩
    exact ⟨⟨value, hread, hsteps⟩, fun value' h => Except.ok.inj (hread.symm.trans h) ▸ hlast⟩
  · rintro ⟨⟨value, hread, hsteps⟩, hlast⟩
    exact ⟨value, hread, hsteps, hlast value hread⟩

/-! ### Intervals -/

/-- The integer lies between the bounds, as far as there are any. -/
def Within (low high : Option Int) (i : Int) : Prop := (∀ l ∈ low, l ≤ i) ∧ ∀ h ∈ high, i ≤ h

@[simp] theorem within_none_none {i : Int} : Within none none i := ⟨fun _ h => (nomatch h), fun _ h => (nomatch h)⟩

@[simp] theorem within_some_none {l i : Int} : Within (some l) none i ↔ l ≤ i := by simp [Within]

@[simp] theorem within_none_some {h i : Int} : Within none (some h) i ↔ i ≤ h := by simp [Within]

@[simp] theorem within_some_some {l h i : Int} : Within (some l) (some h) i ↔ l ≤ i ∧ i ≤ h := by simp [Within]

/-- Arithmetic does not run out of exponents at the integer that the text denotes, if it denotes one. -/
def InLimit (t : Text) : Prop := ∀ i, WritesInteger t i → ∃ y, (Decimal.ofInt i).round? = some y

/-- The values of a type are the integers of an interval. -/
structure AcceptsIntegers (t : SimpleType) (low high : Option Int) : Prop where
  atomic : t.variety = .atomic
  decimal : t.primitiveOf = .decimal
  collapses : t.whiteSpace = .collapse
  accepts {text : Text} (hlimit : InLimit (WhiteSpace.collapse.apply text)) :
    t.check text = [] ↔ ∃ i, WritesInteger (WhiteSpace.collapse.apply text) i ∧ Within low high i

theorem read_integer {t : Text} {i : Int} (h : WritesInteger t i) :
    Value.read .decimal t = .ok (.decimal (.ofInt i)) := by
  rw [Value.read, readDecimal_integer h]
  rfl

theorem acceptsIntegers_integer : AcceptsIntegers Builtin.integer none none where
  atomic := rfl
  decimal := rfl
  collapses := rfl
  accepts {text} hlimit := by
    have hpatterns : Builtin.matching "[\\-+]?[0-9]+" = [Pattern.integerPattern] := by
      rw [Builtin.matching, Pattern.compile_integerPattern]
    have hbase : (primitive .decimal).check text = [] ↔
        ∃ value, Value.read .decimal (WhiteSpace.collapse.apply text) = .ok value := by
      rw [check_eq_nil_iff_of_atomic rfl]
      refine exists_congr fun value => and_iff_left_of_imp fun _ => ?_
      exact List.forall_mem_cons.2 ⟨Facets.check_empty _ _ _ _, List.forall_mem_singleton.2 (Facets.check_empty _ _ _ _)⟩
    rw [Builtin.integer, Builtin.derived, hpatterns, check_restriction_iff rfl rfl, hbase]
    simp only [Facets.check_eq_nil_iff, Facets.checkPatterns_eq_nil_iff, Within, Option.not_mem_none, IsEmpty.forall_iff,
      implies_true, and_self, and_true]
    constructor
    · -- the pattern alone tells that the number is whole
      rintro ⟨⟨value, hread⟩, hstep⟩
      obtain ⟨p, hp, hmatch⟩ := (hstep value hread).1.resolve_left (List.cons_ne_nil _ _)
      rw [List.mem_singleton.1 hp] at hmatch
      exact Pattern.isMatch_integerPattern.1 hmatch
    · rintro ⟨i, hi⟩
      refine ⟨⟨_, read_integer hi⟩, fun value hread => ?_⟩
      obtain rfl := Except.ok.inj ((read_integer hi).symm.trans hread)
      -- digits are counted after rounding, which leaves no fraction to a whole number
      obtain ⟨y, hy⟩ := hlimit i hi
      obtain ⟨total, hdigits⟩ := Decimal.digits?_whole rfl hy
      refine ⟨.inr ⟨_, List.mem_singleton_self _, Pattern.isMatch_integerPattern.2 ⟨i, hi⟩⟩, rfl, fun _ h => (nomatch h),
        fun kind => (by cases kind <;> rfl), ?_⟩
      exact (Facets.checkDigits_eq_nil_iff hdigits).2 ⟨fun _ h => (nomatch h), fun n hn => Option.some.inj hn ▸ le_rfl⟩

/-- The text of a bound, if there is one, denotes the integer. -/
inductive IsBound : Option Text → Option Int → Prop
  | none : IsBound none none
  | some (t : Text) (i : Int) (h : Value.read .decimal t = .ok (.decimal (.ofInt i))) : IsBound (some t) (some i)

theorem checkBound_integer {bound : Option Text} {limit : Option Int} (h : IsBound bound limit) (kind : BoundKind)
    (lexical : Text) (i : Int) :
    Facets.checkBound kind (bound.bind (Builtin.literal? .decimal)) lexical (.decimal (.ofInt i)) = [] ↔
      ∀ l ∈ limit, kind.accepts (compare i l) = true := by
  cases h with
  | none => exact ⟨fun _ _ h => (nomatch h), fun _ => rfl⟩
  | some t l hread =>
      have hliteral : Builtin.literal? .decimal t = .some ⟨t, .decimal (.ofInt l)⟩ := by rw [Builtin.literal?, hread]
      rw [Option.bind_some, hliteral, Facets.checkBound_of_compare rfl (Value.compare_integer i l)]
      simp [ite_eq_left_iff]

theorem check_bounds_iff {least greatest : Option Text} {low high : Option Int} (hleast : IsBound least low)
    (hgreatest : IsBound greatest high) (name : Text) (base : SimpleType) {lexical : Text} {i : Int}
    {unit : LengthUnit} :
    (Builtin.bounded name base least greatest).facets.check lexical (.decimal (.ofInt i)) none unit = [] ↔
      Within low high i := by
  have hbounds : (∀ kind, Facets.checkBound kind ((Builtin.bounded name base least greatest).facets.bound? kind) lexical
      (.decimal (.ofInt i)) = []) ↔ Within low high i := by
    have hmin := checkBound_integer hleast .minInclusive lexical i
    have hmax := checkBound_integer hgreatest .maxInclusive lexical i
    simp only [BoundKind.accepts, Std.isGE_compare, Std.isLE_compare] at hmin hmax
    rw [Within, ← hmin, ← hmax]
    refine ⟨fun h => ⟨h .minInclusive, h .maxInclusive⟩, fun ⟨hmin, hmax⟩ kind => ?_⟩
    cases kind with
    | minInclusive => exact hmin
    | maxInclusive => exact hmax
    | minExclusive | maxExclusive => rfl
  rw [Facets.check_eq_nil_iff, hbounds]
  refine ⟨fun h => h.2.2.2.1, fun h => ⟨rfl, rfl, fun _ h => (nomatch h), h, rfl⟩⟩

/-- A type with more bounds accepts what its base accepts between them. -/
theorem AcceptsIntegers.bounded {base : SimpleType} {low high low' high' low'' high'' : Option Int} {name : Text}
    {least greatest : Option Text} (h : AcceptsIntegers base low high) (hleast : IsBound least low')
    (hgreatest : IsBound greatest high')
    (hboth : ∀ i, Within low high i ∧ Within low' high' i ↔ Within low'' high'' i) :
    AcceptsIntegers (Builtin.bounded name base least greatest) low'' high'' where
  atomic := h.atomic
  decimal := h.decimal
  collapses := (whiteSpace_restriction rfl).trans h.collapses
  accepts {text} hlimit := by
    rw [Builtin.bounded, Builtin.derived, check_restriction_iff h.atomic rfl, h.accepts hlimit, h.collapses, h.decimal,
      ← exists_and_right]
    refine exists_congr fun i => ?_
    rw [and_assoc, ← hboth i]
    refine and_congr_right fun hi => and_congr_right fun _ => ?_
    rw [read_integer hi]
    simp only [Except.ok.injEq, forall_eq']
    exact check_bounds_iff hleast hgreatest name base

/-- The built-in integer types with the least and the greatest of their integers. -/
def integerRanges : List (Text × Option Int × Option Int) :=
  [("integer", none, none), ("nonPositiveInteger", none, some 0), ("negativeInteger", none, some (-1)),
    ("nonNegativeInteger", some 0, none), ("positiveInteger", some 1, none),
    ("long", some (-2 ^ 63), some (2 ^ 63 - 1)), ("int", some (-2 ^ 31), some (2 ^ 31 - 1)),
    ("short", some (-2 ^ 15), some (2 ^ 15 - 1)), ("byte", some (-2 ^ 7), some (2 ^ 7 - 1)),
    ("unsignedLong", some 0, some (2 ^ 64 - 1)), ("unsignedInt", some 0, some (2 ^ 32 - 1)),
    ("unsignedShort", some 0, some (2 ^ 16 - 1)), ("unsignedByte", some 0, some (2 ^ 8 - 1))]

theorem exists_integerType : ∀ r ∈ integerRanges,
    ∃ t ∈ Builtin.all, t.name? = Builtin.named r.1 ∧ AcceptsIntegers t r.2.1 r.2.2 := by
  have integer := acceptsIntegers_integer
  have nonPositiveInteger : AcceptsIntegers Builtin.nonPositiveInteger none (some 0) :=
    integer.bounded .none (.some _ 0 (by decide +kernel)) (by simp)
  have negativeInteger : AcceptsIntegers Builtin.negativeInteger none (some (-1)) :=
    nonPositiveInteger.bounded .none (.some _ (-1) (by decide +kernel)) (by simp; omega)
  have long : AcceptsIntegers Builtin.long (some (-2 ^ 63)) (some (2 ^ 63 - 1)) :=
    integer.bounded (.some _ (-2 ^ 63) (by decide +kernel)) (.some _ (2 ^ 63 - 1) (by decide +kernel)) (by simp)
  have int : AcceptsIntegers Builtin.int (some (-2 ^ 31)) (some (2 ^ 31 - 1)) :=
    long.bounded (.some _ (-2 ^ 31) (by decide +kernel)) (.some _ (2 ^ 31 - 1) (by decide +kernel)) (by simp; omega)
  have short : AcceptsIntegers Builtin.short (some (-2 ^ 15)) (some (2 ^ 15 - 1)) :=
    int.bounded (.some _ (-2 ^ 15) (by decide +kernel)) (.some _ (2 ^ 15 - 1) (by decide +kernel)) (by simp; omega)
  have byte : AcceptsIntegers Builtin.byte (some (-2 ^ 7)) (some (2 ^ 7 - 1)) :=
    short.bounded (.some _ (-2 ^ 7) (by decide +kernel)) (.some _ (2 ^ 7 - 1) (by decide +kernel)) (by simp; omega)
  have nonNegativeInteger : AcceptsIntegers Builtin.nonNegativeInteger (some 0) none :=
    integer.bounded (.some _ 0 (by decide +kernel)) .none (by simp)
  have unsignedLong : AcceptsIntegers Builtin.unsignedLong (some 0) (some (2 ^ 64 - 1)) :=
    nonNegativeInteger.bounded .none (.some _ (2 ^ 64 - 1) (by decide +kernel)) (by simp)
  have unsignedInt : AcceptsIntegers Builtin.unsignedInt (some 0) (some (2 ^ 32 - 1)) :=
    unsignedLong.bounded .none (.some _ (2 ^ 32 - 1) (by decide +kernel)) (by simp; omega)
  have unsignedShort : AcceptsIntegers Builtin.unsignedShort (some 0) (some (2 ^ 16 - 1)) :=
    unsignedInt.bounded .none (.some _ (2 ^ 16 - 1) (by decide +kernel)) (by simp; omega)
  have unsignedByte : AcceptsIntegers Builtin.unsignedByte (some 0) (some (2 ^ 8 - 1)) :=
    unsignedShort.bounded .none (.some _ (2 ^ 8 - 1) (by decide +kernel)) (by simp; omega)
  have positiveInteger : AcceptsIntegers Builtin.positiveInteger (some 1) none :=
    nonNegativeInteger.bounded (.some _ 1 (by decide +kernel)) .none (by simp; omega)
  simp only [integerRanges, List.forall_mem_cons]
  refine ⟨⟨_, ?_, rfl, integer⟩, ⟨_, ?_, rfl, nonPositiveInteger⟩, ⟨_, ?_, rfl, negativeInteger⟩,
    ⟨_, ?_, rfl, nonNegativeInteger⟩, ⟨_, ?_, rfl, positiveInteger⟩, ⟨_, ?_, rfl, long⟩, ⟨_, ?_, rfl, int⟩,
    ⟨_, ?_, rfl, short⟩, ⟨_, ?_, rfl, byte⟩, ⟨_, ?_, rfl, unsignedLong⟩, ⟨_, ?_, rfl, unsignedInt⟩,
    ⟨_, ?_, rfl, unsignedShort⟩, ⟨_, ?_, rfl, unsignedByte⟩, fun _ h => nomatch h⟩
  all_goals simp [Builtin.all]

/-- Each built-in integer type accepts exactly the texts that, without the spaces around them, are an optional sign and
ASCII digits and denote an integer of its interval. -/
theorem integers_exact {name : Text} {low high : Option Int} (h : (name, low, high) ∈ integerRanges) :
    ∃ t, builtin? name = some t ∧ ∀ text, InLimit (WhiteSpace.collapse.apply text) →
      (t.check text = [] ↔ ∃ i, WritesInteger (WhiteSpace.collapse.apply text) i ∧ Within low high i) := by
  obtain ⟨t, ht, hname, haccepts⟩ := exists_integerType _ h
  exact ⟨t, builtin?_of_mem ht hname, fun _ => haccepts.accepts⟩

theorem natAbs_lt_of_writesInteger {t : Text} {i : Int} (h : WritesInteger t i) : i.natAbs < 10 ^ t.length := by
  have hlt {ds : Text} (hds : Pattern.IsNumeral ds) : numeralValue ds < 10 ^ ds.length :=
    digitsValue_eq hds.2 ▸ Text.digitsValue_lt ds
  have hsign (ds : Text) : 10 ^ ds.length < 10 ^ (ds.length + 1) := Nat.pow_lt_pow_succ (by decide)
  cases h with
  | plain hds => exact hlt hds
  | plus hds => exact (hlt hds).trans (hsign _)
  | minus hds =>
      rw [Int.natAbs_neg]
      exact (hlt hds).trans (hsign _)

theorem inLimit_of_length {t : Text} (h : t.length < Decimal.maxWhole) : InLimit t := fun _ hi =>
  ((Decimal.below_ofInt (natAbs_lt_of_writesInteger hi)).round? h).imp fun _ hy => hy.1

theorem integers_exact_byte : (Text.ofString "byte", some (-2 ^ 7), some (2 ^ 7 - 1)) ∈ integerRanges ∧
    InLimit (WhiteSpace.collapse.apply " -0128\n") ∧
    ∃ t, builtin? "byte" = some t ∧ t.check " -0128\n" = [] := by
  have hmem : (Text.ofString "byte", some (-2 ^ 7), some (2 ^ 7 - 1)) ∈ integerRanges := by simp [integerRanges]
  have htext : WhiteSpace.collapse.apply " -0128\n" = "-0128" := by decide
  have hlimit : InLimit (WhiteSpace.collapse.apply " -0128\n") := inLimit_of_length (by rw [htext]; decide)
  obtain ⟨t, ht, haccepts⟩ := integers_exact hmem
  refine ⟨hmem, hlimit, t, ht, (haccepts _ hlimit).2 ⟨-128, ?_, by decide, by decide⟩⟩
  rw [htext]
  exact .minus ⟨by decide, by decide⟩

end SimpleType

end XmlSchema
