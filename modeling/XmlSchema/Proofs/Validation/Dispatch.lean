import XmlSchema.Proofs.Content.Derivations
import XmlSchema.Proofs.Validation.Coverage

/-!
Whose declaration a child is checked against. A derivation of the children tells which leaf of the content model takes
which child, but a run goes by the names alone: it does what the first element particle wants that takes the name, or
else the first wildcard. Where no other leaf that could come first wants something else, a child is checked as the leaf
wants that takes it in the derivation.
-/

namespace XmlSchema.Validation

/-! ### The children of an element -/

/-- What is done about a child. -/
def Treatment.perform (s : Settings) (depth : Nat) (e : Xml.Element) (path : Text) (r : Report) : Treatment → Report
  | check d => checkElement s d path depth r e.toNode
  | undeclared => r.add e.tag.line path [.undeclaredElement e.name.localPart]
  | ignore => r

/-- The children are treated one after the other, until the run is stopped. -/
theorem checkChildren_eq_perform (s : Settings) (leaves : List Particle) (depth : Nat) (paths : List Text) (r : Report)
    (nodes : List Xml.Node) :
    checkChildren s leaves depth paths r nodes =
      ((nodes.filterMap Xml.Node.toElement?).zip paths).foldl (fun r (e, path) =>
        if s.stops r then r else (treatment s.schema leaves e.name).perform s depth e path r) r := by
  induction nodes generalizing paths r with
  | nil => rw [checkChildren, List.filterMap_nil, List.zip_nil_left, List.foldl_nil]
  | cons node later ih =>
      cases he : node.toElement? with
      | none => simp only [checkChildren, he, ih, List.filterMap_cons_none]
      | some e =>
          obtain rfl := eq_toNode_of_toElement he
          cases paths with
          | nil => simp only [checkChildren, he, ih, List.zip_nil_right]
          | cons path paths =>
              rw [List.filterMap_cons_some he, List.zip_cons_cons, List.foldl_cons, ← ih]
              simp only [checkChildren, he]
              cases hs : s.stops r with
              | true => rw [if_pos rfl, if_pos rfl, ih, foldl_of_stops hs]
              | false =>
                  rw [if_neg Bool.false_ne_true, if_neg Bool.false_ne_true]
                  cases treatment s.schema leaves e.name <;> rfl

/-- How the children of an element are checked where they fit the content model. There is a derivation of them. They are
treated one after the other, each as the first leaf wants that takes its name; and so as the leaf wants that takes it in
a derivation, where all rivals of this leaf want the same. -/
structure TreatsChildren (s : Settings) (model : Option Particle) (e : Xml.Element) : Prop where
  run : ∀ depth paths r, checkChildren s (leaves model) depth paths r e.content =
    (e.children.zip paths).foldl (fun r (child, path) =>
      if s.stops r then r else (treatment s.schema (leaves model) child.name).perform s depth child path r) r
  derived : ∃ d ∈ (model.getD .emptySequence).derivations s.schema.substitutes,
    d.map Prod.fst = e.children.map (·.name)
  taken : ∀ child ∈ e.children, ∃ first, takerAmong? s.schema (leaves model) child.name = some first ∧
    Wants s.schema child.name first (treatment s.schema (leaves model) child.name)
  matched : ∀ d ∈ (model.getD .emptySequence).derivations s.schema.substitutes,
    d.map Prod.fst = e.children.map (·.name) → ∀ (i : Nat) (child : Xml.Element), e.children[i]? = some child →
      ∃ leaf ∈ leaves model, d[i]? = some (child.name, leaf) ∧ leaf.takes s.schema.substitutes child.name ∧
        (∃! t, Wants s.schema child.name leaf t) ∧ ∀ t, Wants s.schema child.name leaf t →
          (∀ other, Rivals s.schema model child.name leaf other → Wants s.schema child.name other t) →
            treatment s.schema (leaves model) child.name = t

/-- The children of an element of any type of a schema are checked as the leaves want that take them in a derivation, as
long as names do not mislead: where they fit, and no rival of such a leaf wants something else. -/
theorem treatsChildren_of_fits {root : Xml.Element} {s : Settings} (hs : Schema.ofElement root = .ok s.schema)
    {t : ComplexType} (ht : s.schema.Holds (.complex t)) {e : Xml.Element}
    (hfits : (Content.recover s.schema.substitutes t.content.model? (e.children.map (·.name))).mismatches = []) :
    TreatsChildren s t.content.model? e := by
  obtain ⟨table, htells⟩ := Schema.ofElement_tells hs
  have hclosed := Schema.ofElement_closed hs
  have hmodel := htells.modelSound ht
  have hwants {name : Name} {leaf : Particle} (hleaf : leaf ∈ leaves t.content.model?)
      (h : leaf.takes s.schema.substitutes name) : ∃ t, Wants s.schema name leaf t :=
    exists_wants (hclosed.refersIn ht) hclosed.substitutes hleaf h
  constructor
  case run => exact fun depth paths r => checkChildren_eq_perform s _ depth paths r e.content
  case derived => exact Content.exists_derivation_of_fits hmodel.ranges hmodel.singles hfits
  case taken =>
    intro child hchild
    obtain ⟨leaf, hleaf, htakes⟩ := exists_leaf_of_fits hfits (List.mem_map_of_mem hchild)
    obtain ⟨first, hfirst, hrival⟩ := exists_taker hleaf htakes
    obtain ⟨t, ht⟩ := hwants hrival.mem hrival.takes
    exact ⟨first, hfirst, treatment_eq hfirst ht ▸ ht⟩
  case matched =>
    intro d hd hnames i child hi
    have hname : (d[i]?).map Prod.fst = some child.name := by
      rw [← List.getElem?_map, hnames, List.getElem?_map, hi, Option.map_some]
    obtain ⟨⟨name, leaf⟩, hdi, rfl⟩ := Option.map_eq_some_iff.1 hname
    obtain ⟨hpart, htakes⟩ := Particle.takes_of_mem_derivations hd (List.mem_of_getElem? hdi)
    have hleaf := mem_leaves_of_takes hpart htakes
    obtain ⟨t, ht⟩ := hwants hleaf htakes
    obtain ⟨first, hfirst, hrival⟩ := exists_taker hleaf htakes
    exact ⟨leaf, hleaf, hdi, htakes, ⟨t, ht, fun _ ht' => ht'.unique ht⟩, fun t _ hrivals =>
      treatment_eq hfirst (hrivals first hrival)⟩

theorem treatsChildren_of_fits_note :
    let s : Settings := ⟨noteRules, 256, none⟩
    ∃ t, Schema.ofElement noteSchema = .ok s.schema ∧ s.schema.Holds (.complex t) ∧
      (Content.recover s.schema.substitutes t.content.model? (note.children.map (·.name))).mismatches = [] ∧
      TreatsChildren s t.content.model? note := by
  intro s
  have hs : Schema.ofElement noteSchema = .ok s.schema := by rfl
  obtain ⟨d, t, hd, hdt, hfits⟩ : ∃ d t, s.schema.element? note.name = some d ∧ d.type = .complex t ∧
      (Content.recover s.schema.substitutes t.content.model? (note.children.map (·.name))).mismatches = [] :=
    ⟨_, _, rfl, rfl, by cbv⟩
  have ht : s.schema.Holds (.complex t) := hdt ▸ .element d (.of_element? hd)
  exact ⟨t, hs, ht, hfits, treatsChildren_of_fits hs ht hfits⟩

/-- A second addressee can only be what the wildcard takes, but is checked like the first one. -/
example :
    let s : Settings := ⟨noteRules, 256, none⟩
    let addressee (content : List Xml.Node) : Xml.Node := .element ⟨⟨[], "to"⟩, 1, [], []⟩ content
    (checkDocument s ⟨⟨⟨[], "note"⟩, 1, [], []⟩, [addressee [], addressee [.text "x" 1]]⟩ {}).inOrder =
      [⟨.textInEmpty "to" "x", 1, "/note/to[2]"⟩] := by
  cbv

end XmlSchema.Validation
