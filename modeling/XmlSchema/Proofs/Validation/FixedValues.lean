import XmlSchema.Proofs.Schema.SimpleTypes
import XmlSchema.Proofs.SimpleType.Checks
import XmlSchema.Proofs.SimpleType.Equality
import XmlSchema.Validation.Element

/-!
Values that a schema sets or enumerates. A document that repeats a fixed value has it, and an enumerated value passes
its own enumeration. The number that is none does neither: it equals nothing, and so not itself.
-/

namespace XmlSchema

namespace SimpleType

variable {t : SimpleType} {allowed : List Literal}

/-! ### Enumerated values -/

theorem Builtin.enumeration_eq_none (h : t ∈ all) : t.facets.enumeration = none := by
  rcases mem_all_cases t h with ⟨p, rfl⟩ | ⟨name, base, _, facets, rfl, _, hfacets⟩ | ⟨name, item, _, rfl⟩
  · cases p <;> rfl
  · exact hfacets
  · rfl

/-- The text of an enumerated value is read as that value, unless the step that lists it has white space of its own. -/
theorem IsBuilt.read_enumerated (ht : t.IsBuilt) (hatomic : t.variety = .atomic) (hspace : t.facets.whiteSpace = none)
    (hallowed : t.facets.enumeration = some allowed) {l : Literal} (hl : l ∈ allowed) :
    Value.read t.primitiveOf (t.whiteSpace.apply l.lexical) = .ok l.value := by
  cases ht with
  | builtin h => exact nomatch (Builtin.enumeration_eq_none h).symm.trans hallowed
  | @restriction name base facets _ hfacets =>
      -- the base has read the value, and treats white space as the step does
      have hread := hfacets.enumeration allowed hallowed l hl
      have hbase : base.variety = .atomic := hatomic
      have hspace : facets.whiteSpace = none := hspace
      rw [Literal.IsReadBy, if_pos hbase] at hread
      rw [whiteSpace_restriction hspace]
      exact hread
  | list | union => exact Variety.noConfusion hatomic

/-- A value that the facets enumerate is one of those that they enumerate, if it equals itself. -/
theorem checkEnumeration_enumerated {f : Facets} (hallowed : f.enumeration = some allowed) {l : Literal}
    (hl : l ∈ allowed) (lexical : Text) : f.checkEnumeration lexical l.value = [] ↔ l.value ≠ .double .nan := by
  rw [Facets.checkEnumeration_eq_nil_iff]
  constructor
  · intro h hnan
    obtain ⟨l', _, hequal⟩ := h allowed hallowed
    obtain ⟨p, hp, _⟩ := Value.equal_iff.1 hequal
    rw [Value.point?_eq_none_iff.2 hnan] at hp
    exact nomatch hp
  · rintro hne _ hallowed'
    obtain rfl := Option.some.inj (hallowed.symm.trans hallowed')
    exact ⟨l, hl, Value.equal_self_iff.2 hne⟩

end SimpleType

namespace Validation

/-! ### Fixed values -/

variable {t : SimpleType} {fixed : Text}

theorem fixedAttribute_mem_iff (name : Text) :
    .fixedAttribute name fixed ∈ checkAttributeValue name fixed t (some fixed) ↔ t.IsNaN fixed := by
  rw [← SimpleType.sameValue?_self.1, checkAttributeValue]
  rcases t.sameValue? fixed fixed with _ | _ | _ <;> simp

theorem valueOf_fixed {d : ElementDeclaration} (h : d.fixed = some fixed) : valueOf d fixed = fixed := by
  rw [valueOf, h]
  split <;> rfl

theorem fixedValue_mem_iff {d : ElementDeclaration} (h : d.fixed = some fixed) :
    .fixedValue d.name.localPart fixed ∈ checkText d t fixed ↔ t.IsNaN fixed := by
  rw [← SimpleType.sameValue?_self.1, checkText, valueOf_fixed h, h]
  dsimp only
  rcases t.sameValue? fixed fixed with _ | _ | _ <;> simp

/-- To have the same value is symmetric and transitive, for every simple type of a schema. A text has the value of itself
unless it is that of the number that is none, or has more digits than arithmetic allows. So it is only that number which
a document cannot have by repeating a fixed value, and which does not pass the enumeration that lists it. -/
theorem values_equal_unless_nan {root : Xml.Element} {schema : Schema} (h : Schema.ofElement root = .ok schema)
    {t : SimpleType} (ht : schema.Holds (.simple t)) :
    (∀ a b, t.sameValue? a b = some true → t.sameValue? b a = some true) ∧
    (∀ a b c, t.sameValue? a b = some true → t.sameValue? b c = some true → t.sameValue? a c = some true) ∧
    (∀ a, t.sameValue? a a = some true ↔ ¬ t.IsNaN a ∧ ¬ t.Overflows a) ∧
    (∀ name fixed, .fixedAttribute name fixed ∈ checkAttributeValue name fixed t (some fixed) ↔ t.IsNaN fixed) ∧
    (∀ d fixed, d.fixed = some fixed →
      (.fixedValue d.name.localPart fixed ∈ checkText d t fixed ↔ t.IsNaN fixed)) ∧
    ∀ allowed, t.variety = .atomic → t.facets.whiteSpace = none → t.facets.enumeration = some allowed →
      ∀ l ∈ allowed, ∃ value, Value.read t.primitiveOf (t.whiteSpace.apply l.lexical) = .ok value ∧
        (t.facets.checkEnumeration (t.whiteSpace.apply l.lexical) value = [] ↔ ¬ t.IsNaN l.lexical) := by
  refine ⟨fun _ _ => SimpleType.sameValue?_symm, fun _ _ _ => SimpleType.sameValue?_trans,
    fun _ => SimpleType.sameValue?_self_iff, fun name _ => fixedAttribute_mem_iff name, fun _ _ => fixedValue_mem_iff,
    fun allowed hatomic hspace hallowed l hl => ?_⟩
  have hbuilt : t.IsBuilt := Schema.ofElement_isBuilt h ht
  have hread := hbuilt.read_enumerated hatomic hspace hallowed hl
  refine ⟨l.value, hread, ?_⟩
  rw [SimpleType.checkEnumeration_enumerated hallowed hl, SimpleType.isNaN_iff_read, hread, Except.ok.injEq]
  exact not_congr ⟨fun h => ⟨hatomic, h⟩, And.right⟩

/-- A gauge shows nothing, or that it is broken. -/
def gaugeSchema : Xml.Element :=
  let node (kind : Text) (attributes : List (Text × Text)) (content : List Xml.Node) : Xml.Node :=
    .element (Schema.schemaTag kind attributes) content
  ⟨Schema.schemaTag "schema" [], [
    node "simpleType" [("name", "gauge")] [
      node "restriction" [("base", "xs:float")] [
        node "enumeration" [("value", "NaN")] [], node "enumeration" [("value", "0")] []]]]⟩

theorem values_equal_unless_nan_gauge : ∃ schema t, Schema.ofElement gaugeSchema = .ok schema ∧
    schema.Holds (.simple t) ∧ t.sameValue? "0" "0.0" = some true ∧ t.sameValue? "0.0" "0" = some true ∧
    t.sameValue? "NaN" "NaN" ≠ some true ∧ ∃ allowed, t.facets.enumeration = some allowed ∧
      ∀ l ∈ allowed, ∃ value, Value.read t.primitiveOf (t.whiteSpace.apply l.lexical) = .ok value ∧
        (t.facets.checkEnumeration (t.whiteSpace.apply l.lexical) value = [] ↔ ¬ t.IsNaN l.lexical) := by
  have hgauge : (Schema.ofElement gaugeSchema).toOption.map (fun s => (s.types.lookup ⟨[], "gauge"⟩).bind fun type =>
      type.simpleType?.map fun t => decide (t.IsNaN "NaN" ∧ t.facets.whiteSpace.isNone ∧ t.facets.enumeration.isSome ∧
        t.sameValue? "0" "0.0" = some true)) = some (some true) := by decide +kernel
  obtain ⟨schema, t, h, ht, hgauge⟩ := Schema.exists_simpleType hgauge
  obtain ⟨hnan, hspace, hallowed, hsame⟩ := of_decide_eq_true hgauge
  rw [Option.isNone_iff_eq_none] at hspace
  obtain ⟨allowed, hallowed⟩ := Option.isSome_iff_exists.1 hallowed
  obtain ⟨hsymm, _, hself, _, _, henumeration⟩ := values_equal_unless_nan h ht
  exact ⟨schema, t, h, ht, hsame, hsymm _ _ hsame, fun hnever => ((hself "NaN").1 hnever).1 hnan, allowed,
    hallowed, henumeration allowed hnan.1 hspace hallowed⟩

end Validation

end XmlSchema
