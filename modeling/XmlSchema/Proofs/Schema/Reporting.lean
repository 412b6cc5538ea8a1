import XmlSchema.Proofs.Schema.ContentLimits
import XmlSchema.Proofs.Schema.References
import XmlSchema.Schema.Reader

/-!
What becomes of a schema document: it is read, or what is wrong with it is reported at a line, or it goes beyond one of
the limits. No other error comes out of it.
-/

namespace XmlSchema.Schema

variable {root : Xml.Element} {r : Registry} {s : Scope} {i : Item}

/-! ### Definitions -/

theorem readDefinition_reads (hs : s.From root r) (hi : i.From root) (key : DefinitionKey) :
    Reads root (·.NestsIn r i) (readDefinition s key i) := by
  rw [readDefinition]
  cases key.kind with
  | type =>
      refine .ite (fun _ => ?_) fun _ => ?_
      · exact .bind (readComplexType_reads hs hi key (some key.name)) fun t ht => .pure ht
      · exact .bind (.lift (readSimpleType_ends hs.known (some key.name) i hi)) fun t _ => .pure trivial
  | group => exact readGroup_reads hs key hi
  | attributeGroup =>
      refine .bind (.lift (inner_ends hi)) fun items hitems => ?_
      have hitems : ∀ j ∈ items, j.From root := fun j hj => hi.of_mem (hitems ▸ hj)
      exact .bind (readAttributes_reads hs i.kind hitems) fun _ _ => .pure trivial
  | element => exact .fail _ _

/-- What has been read of a registry nests no deeper than the items that it is registered with. -/
def Registry.Knows (r : Registry) (read : List (DefinitionKey × Component)) : Prop :=
  ∀ key c, read.lookup key = some c → ∃ d, r.item? key = some d ∧ c.NestsIn r d

theorem findDefinition_ends (hs : s.From root r) (hitems : ∀ key i, r.item? key = some i → i.From root)
    {read : List (DefinitionKey × Component)} (hread : r.Knows read) (depth : Nat) (opened : List DefinitionKey)
    (key : DefinitionKey) :
    Ends (fun found => ∀ c, found = some c → ∃ d, r.item? key = some d ∧ c.NestsIn r d) (Reported root)
      (findDefinition r s read depth opened key) := by
  induction depth generalizing opened key with
  | zero => exact .ok nofun
  | succ depth ih =>
      rw [findDefinition]
      split
      · next hc =>
          refine .ok ?_
          rintro _ ⟨⟩
          exact hread key _ hc
      · exact .ok nofun
      · next i _ hi =>
          refine .guard (fun _ => ends_fail ..) fun _ => ?_
          -- what is needed while a definition is read is found with less depth, but as well
          have hfind : Scope.From root r { s with definition? := findDefinition r s read depth (key :: opened) } :=
            { hs with definitions := ih (key :: opened) }
          refine (readDefinition_reads hfind (hitems key i hi) key {} (by simp)).bind fun x hx => .ok ?_
          rintro _ ⟨⟩
          exact ⟨i, hi, hx.1⟩

theorem Scope.From.scopeOf (hs : s.From root r) (hitems : ∀ key i, r.item? key = some i → i.From root)
    {read : List (DefinitionKey × Component)} (hread : r.Knows read) (opened : List DefinitionKey) :
    (scopeOf r s read opened).From root r :=
  { hs with definitions := findDefinition_ends hs hitems hread _ opened }

/-- What is registered stands at the top of the document. -/
structure Registry.From (root : Xml.Element) (r : Registry) : Prop where
  definitions : ∀ d ∈ r.definitions, d.item.From root ∧ ∃ e : Xml.Element, e.Within root ∧ d.content = e.content
  elements : ∀ p ∈ r.elements, p.From root
  attributes : ∀ x ∈ r.attributes, x.2.From root

namespace Registry

theorem define_ends (hr : r.From root) (key : DefinitionKey) (what name : Text) (hi : i.From root) {e : Xml.Element}
    (he : e.Within root) : Ends (Registry.From root) (Reported root) (r.define key what name i e.content) := by
  rw [define]
  refine .ite (fun _ => ends_fail ..) fun _ => .ok { hr with definitions := ?_ }
  exact List.forall_mem_cons.2 ⟨⟨hi, e, he, rfl⟩, hr.definitions⟩

theorem declareElement_ends (hr : r.From root) (name : Name) (rawName : Text) (hi : i.From root) :
    Ends (Registry.From root) (Reported root) (r.declareElement name rawName i) := by
  rw [declareElement]
  refine .guard (fun _ => ends_fail ..) fun _ => ?_
  refine (flag_ends i "nillable").bind fun isNillable _ => (flag_ends i "abstract").bind fun isAbstract _ => ?_
  have helement {p : PendingElement} (hp : p.From root) : Registry.From root { r with elements := p :: r.elements } :=
    { hr with elements := List.forall_mem_cons.2 ⟨hp, hr.elements⟩ }
  split
  · exact (expandName_ends ..).bind fun head _ => .ok (helement ⟨hi, rfl, rfl⟩)
  · exact .ok (helement ⟨hi, rfl, rfl⟩)

theorem add_ends (hr : r.From root) (targetNamespace : Text) {e : Xml.Element} (he : e ∈ root.children) :
    Ends (Registry.From root) (Reported root) (r.add targetNamespace (Item.ofTag e.tag e.content) e.content) := by
  have hi := Item.from_ofTag he
  have hwithin : e.Within root := .inside he (.refl e)
  rw [add]
  refine .ite (fun _ => .ok { hr with }) fun _ => .ite (fun _ => .ok hr) fun _ => ?_
  split
  swap
  · exact ends_fail ..
  refine .ite (fun _ => declareElement_ends hr _ _ hi) fun _ => .ite (fun _ => ?_) fun _ => ?_
  · refine .ite (fun _ => ends_fail ..) fun _ => .ok { hr with attributes := ?_ }
    exact List.forall_mem_cons.2 ⟨hi, hr.attributes⟩
  refine .ite (fun _ => ?_) fun _ => ?_
  · exact (define_ends hr _ _ _ hi hwithin).bind fun r hr => (flag_ends _ _).bind fun _ _ => .ok hr
  refine .ite (fun _ => define_ends hr _ _ _ hi hwithin) fun _ => ?_
  refine .ite (fun _ => define_ends hr _ _ _ hi hwithin) fun _ => ?_
  exact .ite (fun _ => define_ends hr _ _ _ hi hwithin) fun _ => ends_fail ..

theorem ofRoot_ends (root : Xml.Element) : Ends (Registry.From root) (Reported root) (ofRoot root) := by
  rw [ofRoot]
  refine Ends.bind (P := fun _ => True) (.forIn fun e he => ?_) fun _ _ => ?_
  · exact .guard (fun _ => .error (reported_foreign (.inside he (.refl e)) ..)) fun _ => .ok rfl
  refine Ends.bind (P := Registry.From root) (.foldlM ⟨by simp, by simp, by simp⟩ fun r hr e he => ?_) fun r hr => ?_
  · exact add_ends hr _ (List.mem_of_mem_filter he)
  · refine .ok ⟨fun d hd => ?_, fun p hp => ?_, fun x hx => ?_⟩
    · exact hr.definitions d (List.mem_reverse.1 hd)
    · exact hr.elements p (List.mem_reverse.1 hp)
    · exact hr.attributes x (List.mem_reverse.1 hx)

/-! ### The order of definitions -/

theorem From.item? (hr : r.From root) (key : DefinitionKey) (i : Item) (h : r.item? key = some i) : i.From root := by
  obtain ⟨d, hd, rfl⟩ := Option.map_eq_some_iff.1 h
  exact (hr.definitions d (List.mem_of_find?_eq_some hd)).1

end Registry

/-! ### Schemas -/

/-- No flaw is told of a bound that no matcher counts to. -/
example : (Pattern.compile "a\x7b4294967295\x7d" matches .error .boundTooLarge) = true := by decide +kernel

end XmlSchema.Schema
