import XmlSchema.Proofs.Schema.Lists
import XmlSchema.Proofs.SimpleType.Equality

/-!
Lists with the same value. They are compared as texts, token by token, and not by the values of their items. So lists
of the same tokens are the same also if an item is the number that is none, and lists of the same values are not the
same if an item is written in another way.
-/

namespace XmlSchema

/-! ### Values that are texts -/

namespace Primitive

/-- The values are the texts themselves. -/
def isText : Primitive → Bool
  | anySimpleType | string | anyURI | qname | notationName => true
  | _ => false

theorem read_of_isText {p : Primitive} (hp : p.isText = true) {t : Text} {v : Value} (h : Value.read p t = .ok v) :
    v = .text t := by
  have hname (h : (Lexical.readQName t).map Value.text = .ok v) : v = .text t := by
    rw [Lexical.readQName] at h
    dsimp only at h
    split at h
    · exact (Except.ok.inj h).symm
    · exact nomatch h
  cases p with
  | anySimpleType | string | anyURI => exact (Except.ok.inj h).symm
  | qname | notationName => exact hname h
  | _ => exact nomatch hp

/-- Every other primitive reads some value from two different texts. -/
theorem isText_iff {p : Primitive} :
    p.isText = true ↔ ∀ x y v, Value.read p x = .ok v → Value.read p y = .ok v → x = y := by
  constructor
  · intro hp x y v hx hy
    exact Value.text.inj ((read_of_isText hp hx).symm.trans (read_of_isText hp hy))
  · intro h
    cases p with
    | anySimpleType | string | anyURI | qname | notationName => rfl
    | boolean => exact absurd (h "1" "true" (.boolean true) rfl rfl) (by decide)
    | decimal => exact absurd (h "1" "01" (.decimal (.ofInt 1)) rfl rfl) (by decide)
    | float => exact absurd (h "INF" "+INF" (.double (.infinite false)) rfl rfl) (by decide)
    | double => exact absurd (h "INF" "+INF" (.double (.infinite false)) rfl rfl) (by decide)
    | duration =>
        refine absurd (h "PT1M" "PT60S" (.duration 0 (.ofInt 60)) ?_ ?_) (by decide)
        · decide +kernel
        · decide +kernel
    | dateTime =>
        refine absurd (h "2000-01-01T00:00:00" "2000-01-01T00:00:00Z" (.moment ⟨.reference, .midnight, 0⟩) ?_ ?_)
          (by decide)
        · rfl
        · rfl
    | date => exact absurd (h "2000-01-01" "2000-01-01Z" (.moment ⟨.reference, .midnight, 0⟩) rfl rfl) (by decide)
    | time => exact absurd (h "00:00:00" "00:00:00Z" (.moment ⟨.reference, .midnight, 0⟩) rfl rfl) (by decide)
    | gYear => exact absurd (h "2000" "2000Z" (.integer 2000) rfl rfl) (by decide)
    | gYearMonth => exact absurd (h "2000-01" "2000-01Z" (.pair 2000 1) rfl rfl) (by decide)
    | gMonthDay => exact absurd (h "--01-01" "--01-01Z" (.pair 1 1) rfl rfl) (by decide)
    | gDay => exact absurd (h "---01" "---01Z" (.integer 1) rfl rfl) (by decide)
    | gMonth => exact absurd (h "--01" "--01Z" (.integer 1) rfl rfl) (by decide)
    | hexBinary => exact absurd (h "aa" "AA" (.bytes [0xaa]) rfl rfl) (by decide)
    | base64Binary => exact absurd (h "QQ==" "QR==" (.bytes [0x41]) rfl rfl) (by decide)

end Primitive

/-! ### Tokens -/

namespace WhiteSpace

variable {t : Text} {runs runs' : List Text}

theorem IsRun.apply_eq {run : Text} (h : IsRun run) (w : WhiteSpace) : w.apply run = run := by
  have hruns : HasRuns run [run] := by
    simpa [Text.join] using hasRuns_join (List.forall_mem_singleton.2 h)
  cases w with
  | preserve => rfl
  | replace => exact h.spaced_eq
  | collapse => rw [hruns.collapse_eq, Text.join, List.flatMap_nil, List.append_nil]

theorem join_inj (h : ∀ run ∈ runs, IsRun run) (h' : ∀ run ∈ runs', IsRun run) :
    Text.join " " runs = Text.join " " runs' ↔ runs = runs' :=
  ⟨fun hjoin => (hasRuns_join h).unique (hjoin ▸ hasRuns_join h'), congrArg _⟩

end WhiteSpace

namespace SimpleType

variable {t item : SimpleType} {a b x y : Text} {as bs : List Text}

/-- Lists have the same value if they have the same tokens. -/
theorem sameValue?_of_list (hlist : t.variety = .list) (ha : WhiteSpace.HasRuns a as) (hb : WhiteSpace.HasRuns b bs) :
    t.sameValue? a b = some true ↔ as = bs := by
  have hnot : t.variety ≠ .atomic := fun h => Variety.noConfusion (hlist.symm.trans h)
  have hspace : t.whiteSpace = .collapse := if_neg hnot
  rw [sameValue?, if_neg hnot, hspace, ha.collapse_eq, hb.collapse_eq, Option.some.injEq, decide_eq_true_eq,
    WhiteSpace.join_inj ha.isRun hb.isRun]

/-- The items have the same values, one by one. -/
def SameItems (item : SimpleType) : List Text → List Text → Prop :=
  List.Forall₂ fun x y => item.sameValue? x y = some true

theorem not_overflows_of_check (hatomic : item.variety = .atomic) (h : item.check x = []) : ¬item.Overflows x := by
  obtain ⟨v, hread, -⟩ := (check_eq_nil_iff_of_atomic hatomic).1 h
  exact fun hoverflow => nomatch hread.symm.trans hoverflow.2

theorem sameItems_self_iff (hatomic : item.variety = .atomic) (h : ∀ x ∈ as, item.check x = []) :
    item.SameItems as as ↔ ∀ x ∈ as, ¬item.IsNaN x := by
  rw [SameItems, List.forall₂_same]
  refine forall₂_congr fun x hx => ?_
  rw [sameValue?_self_iff, and_iff_left (not_overflows_of_check hatomic (h x hx))]

theorem eq_of_sameValue?_of_isText (hatomic : item.variety = .atomic) (htext : item.primitiveOf.isText = true)
    (hx : WhiteSpace.IsRun x) (hy : WhiteSpace.IsRun y) (hcheck : item.check x = []) (hcheck' : item.check y = [])
    (h : item.sameValue? x y = some true) : x = y := by
  obtain ⟨v, hread, -⟩ := (check_eq_nil_iff_of_atomic hatomic).1 hcheck
  obtain ⟨w, hread', -⟩ := (check_eq_nil_iff_of_atomic hatomic).1 hcheck'
  rw [sameValue?, if_pos hatomic] at h
  simp only [hread, hread'] at h
  obtain rfl := Primitive.read_of_isText htext hread
  obtain rfl := Primitive.read_of_isText htext hread'
  rw [Option.some.injEq, Value.equal_text, Value.text.injEq, hx.apply_eq, hy.apply_eq] at h
  exact h.symm

theorem sameItems_iff_of_isText (hatomic : item.variety = .atomic) (htext : item.primitiveOf.isText = true)
    (ha : ∀ x ∈ as, WhiteSpace.IsRun x ∧ item.check x = []) (hb : ∀ y ∈ bs, WhiteSpace.IsRun y ∧ item.check y = []) :
    item.SameItems as bs ↔ as = bs := by
  constructor
  · intro h
    induction h with
    | nil => rfl
    | cons hsame _ ih =>
        rw [List.forall_mem_cons] at ha hb
        rw [eq_of_sameValue?_of_isText hatomic htext ha.1.1 hb.1.1 ha.1.2 hb.1.2 hsame, ih ha.2 hb.2]
  · rintro rfl
    rw [sameItems_self_iff hatomic fun x hx => (ha x hx).2]
    rintro x - ⟨-, hfloat | hdouble, -⟩
    · rw [hfloat] at htext
      exact nomatch htext
    · rw [hdouble] at htext
      exact nomatch htext

end SimpleType

namespace Schema

open SimpleType

/-- Two lists have the same value if they have the same tokens. That is so also if an item is the number that is none,
which has not the value of itself. For items whose values are texts it is the same as comparing them one by one. -/
theorem lists_compared_by_token {root : Xml.Element} {schema : Schema} (h : ofElement root = .ok schema)
    {t item : SimpleType} (ht : schema.Holds (.simple t)) (hlist : t.variety = .list) (hitem : t.itemType? = some item)
    (hatomic : item.variety = .atomic) {a b : Text} {as bs : List Text} (ha : WhiteSpace.HasRuns a as)
    (hb : WhiteSpace.HasRuns b bs) (hcheck : t.check a = []) (hcheck' : t.check b = []) :
    (t.sameValue? a b = some true ↔ as = bs) ∧
    (as = bs → (item.SameItems as bs ↔ ∀ x ∈ as, ¬item.IsNaN x)) ∧
    (item.primitiveOf.isText = true → (t.sameValue? a b = some true ↔ item.SameItems as bs)) := by
  have hbuilt : t.IsBuilt := ofElement_isBuilt h ht
  have hitems := ((hbuilt.check_eq_nil_iff hlist hitem ha).1 hcheck).1
  have hitems' := ((hbuilt.check_eq_nil_iff hlist hitem hb).1 hcheck').1
  have hsame := sameValue?_of_list hlist ha hb
  refine ⟨hsame, ?_, fun htext => ?_⟩
  · rintro rfl
    exact sameItems_self_iff hatomic hitems
  · rw [hsame, sameItems_iff_of_isText hatomic htext (fun x hx => ⟨ha.isRun x hx, hitems x hx⟩)
      fun y hy => ⟨hb.isRun y hy, hitems' y hy⟩]

/-- Readings of an instrument, in binary numbers. -/
def readingsSchema : Xml.Element :=
  ⟨schemaTag "schema" [], [.element (schemaTag "simpleType" [("name", "readings")]) [
    .element (schemaTag "list" [("itemType", "xs:float")]) []]]⟩

theorem lists_compared_by_token_readings : ∃ schema t item, ofElement readingsSchema = .ok schema ∧
    schema.Holds (.simple t) ∧ t.itemType? = some item ∧
    t.sameValue? "1 NaN" "1\nNaN" = some true ∧ ¬item.SameItems ["1", "NaN"] ["1", "NaN"] ∧
    t.sameValue? "1 2" "1 2.0" ≠ some true ∧ item.SameItems ["1", "2"] ["1", "2.0"] := by
  have hreadings : (ofElement readingsSchema).toOption.map (fun s => (s.types.lookup ⟨[], "readings"⟩).bind fun type =>
      type.simpleType?.map fun t => decide (t.variety = .list ∧
        (∀ text ∈ (["1 NaN", "1\nNaN", "1 2", "1 2.0"] : List Text), (t.check text).isEmpty) ∧
        t.itemType?.any fun item => decide (item.IsNaN "NaN" ∧ item.sameValue? "1" "1" = some true ∧
          item.sameValue? "2" "2.0" = some true))) = some (some true) := by
    decide +kernel
  obtain ⟨schema, t, h, ht, hreadings⟩ := exists_simpleType hreadings
  obtain ⟨hlist, hchecks, hitem⟩ := of_decide_eq_true hreadings
  obtain ⟨item, hitem, hitems⟩ := (Option.any_eq_true ..).1 hitem
  obtain ⟨hnan, hone, htwo⟩ := of_decide_eq_true hitems
  have hcheck (text : Text) (htext : text ∈ (["1 NaN", "1\nNaN", "1 2", "1 2.0"] : List Text)) : t.check text = [] :=
    List.isEmpty_iff.1 (hchecks text htext)
  have hruns {text : Text} {tokens : List Text} (h : WhiteSpace.tokens (WhiteSpace.spaced text) = tokens) :
      WhiteSpace.HasRuns text tokens := WhiteSpace.hasRuns_iff.2 h
  have hnans : WhiteSpace.HasRuns "1 NaN" ["1", "NaN"] ∧ WhiteSpace.HasRuns "1\nNaN" ["1", "NaN"] :=
    ⟨hruns (by decide), hruns (by decide)⟩
  have hnumbers : WhiteSpace.HasRuns "1 2" ["1", "2"] ∧ WhiteSpace.HasRuns "1 2.0" ["1", "2.0"] :=
    ⟨hruns (by decide), hruns (by decide)⟩
  obtain ⟨hsame, hself, -⟩ := lists_compared_by_token h ht hlist hitem hnan.1 hnans.1 hnans.2
    (hcheck "1 NaN" (by decide)) (hcheck "1\nNaN" (by decide))
  obtain ⟨hother, -, -⟩ := lists_compared_by_token h ht hlist hitem hnan.1 hnumbers.1 hnumbers.2
    (hcheck "1 2" (by decide)) (hcheck "1 2.0" (by decide))
  refine ⟨schema, t, item, h, ht, hitem, hsame.2 rfl, fun hall => (hself rfl).1 hall "NaN" (by decide) hnan, ?_,
    .cons hone (.cons htwo .nil)⟩
  exact fun hequal => absurd (hother.1 hequal) (by decide)

end Schema

end XmlSchema
