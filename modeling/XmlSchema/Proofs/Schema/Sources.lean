import XmlSchema.Proofs.Outcome
import XmlSchema.Proofs.Schema.Reading
import XmlSchema.Schema.Reader

/-!
Where the items of a schema come from. Each is made by an element of the document, and what must not stand in it is one
of the children of that element.
-/

namespace XmlSchema

/-- An element stands at or inside another one. -/
inductive Xml.Element.Within : Xml.Element → Xml.Element → Prop
  | refl (e : Xml.Element) : Xml.Element.Within e e
  | inside {d m e : Xml.Element} (hm : m ∈ e.children) (h : Xml.Element.Within d m) : Xml.Element.Within d e

theorem Xml.Element.Within.trans {d m e : Xml.Element} (h : d.Within m) (h' : m.Within e) : d.Within e := by
  induction h' with
  | refl => exact h
  | inside hm _ ih => exact .inside hm ih

theorem Xml.Element.Within.child {d m e : Xml.Element} (h : m.Within e) (hd : d ∈ m.children) : d.Within e :=
  Xml.Element.Within.trans (.inside hd (.refl d)) h

namespace Schema

/-- The item that an element makes at a path. -/
def Item.ofElement (path : List Nat) (e : Xml.Element) : Item :=
  let inner := gatherAll (· :: path) {} e.content
  .mk e.tag path inner.foreign inner.items.reverse

namespace Item

variable {place : Nat → List Nat} {g : Gathering} {es : List Xml.Element}

/-- What has been gathered comes from some elements. -/
structure Gathering.From (es : List Xml.Element) (g : Gathering) : Prop where
  items : ∀ i ∈ g.items, ∃ e ∈ es, ∃ path, i = ofElement path e
  foreign : ∀ name line, g.foreign = some (name, line) → ∃ e ∈ es, e.name = name

theorem gather_from (hg : g.From es) (node : Xml.Node) (hnode : ∀ e, node.toElement? = some e → e ∈ es) :
    (gather place g node).From es := by
  cases node with
  | element tag content =>
      have he : ⟨tag, content⟩ ∈ es := hnode _ rfl
      rw [gather]
      split
      · refine ⟨hg.items, fun name line h => ?_⟩
        cases hforeign : g.foreign with
        | none =>
            rw [hforeign] at h
            cases h
            exact ⟨_, he, rfl⟩
        | some found =>
            rw [hforeign] at h
            exact hg.foreign name line (hforeign.trans h)
      split
      · exact hg
      · refine ⟨?_, hg.foreign⟩
        exact List.forall_mem_cons.2 ⟨⟨⟨tag, content⟩, he, place g.count, rfl⟩, hg.items⟩
  | _ => exact hg

theorem gatherAll_from (hg : g.From es) {nodes : List Xml.Node}
    (hnodes : ∀ node ∈ nodes, ∀ e, node.toElement? = some e → e ∈ es) : (gatherAll place g nodes).From es := by
  induction nodes generalizing g with
  | nil => exact hg
  | cons node nodes ih =>
      obtain ⟨hnode, hnodes⟩ := List.forall_mem_cons.1 hnodes
      exact ih (gather_from hg node hnode) hnodes

theorem gatherAll_children (place : Nat → List Nat) (e : Xml.Element) :
    (gatherAll place {} e.content).From e.children :=
  gatherAll_from ⟨by simp, by simp⟩ fun node hnode _ hd => List.mem_filterMap.2 ⟨node, hnode, hd⟩

end Item

/-- An item is made by an element of the document. -/
def Item.From (root : Xml.Element) (i : Item) : Prop := ∃ path e, e.Within root ∧ i = Item.ofElement path e

variable {root : Xml.Element} {i j : Item}

theorem Item.from_ofTag {e : Xml.Element} (he : e ∈ root.children) : (Item.ofTag e.tag e.content).From root :=
  ⟨[], e, .inside he (.refl e), rfl⟩

namespace Item.From

theorem exists_attribute (h : i.From root) {key value : Text} (hvalue : i.get? key = some value) :
    ∃ e : Xml.Element, e.Within root ∧ e.name.localPart = i.kind ∧ e.tag.attribute? key = some value := by
  obtain ⟨path, e, he, rfl⟩ := h
  exact ⟨e, he, rfl, hvalue⟩

theorem of_mem (h : i.From root) (hj : j ∈ i.items) : j.From root := by
  obtain ⟨path, e, he, rfl⟩ := h
  obtain ⟨d, hd, path', rfl⟩ := (Item.gatherAll_children (· :: path) e).items j (List.mem_reverse.1 hj)
  exact ⟨path', d, he.child hd, rfl⟩

/-- What must not stand in an item stands in the document. -/
theorem inner_ends (h : i.From root) : Ends (· = i.items)
    (fun error => ∃ name line parent, error = foreignError name line parent ∧
      ∃ e : Xml.Element, e.Within root ∧ e.name = name)
    i.inner := by
  obtain ⟨path, e, he, rfl⟩ := h
  change Ends _ _ (Item.inner (.mk e.tag path (Item.gatherAll (· :: path) {} e.content).foreign _))
  cases hforeign : (Item.gatherAll (· :: path) {} e.content).foreign with
  | none => exact .ok rfl
  | some found =>
      obtain ⟨d, hd, hname⟩ := (Item.gatherAll_children (· :: path) e).foreign found.1 found.2 hforeign
      exact .error ⟨found.1, found.2, _, rfl, d, he.child hd, hname⟩

end Item.From

/-! ### Tags -/

mutual

/-- The tags at and in a node are those of elements there. -/
theorem mem_tagsFrom {tag : Xml.Tag} {seen : List Xml.Tag} : (node : Xml.Node) → tag ∈ tagsFrom seen node →
    tag ∈ seen ∨ ∃ e d : Xml.Element, node.toElement? = some e ∧ d.Within e ∧ d.tag = tag
  | .element tag' content => by
    intro h
    rw [tagsFrom] at h
    split at h
    · exact .inl h
    rcases List.mem_cons.1 h with rfl | h
    · exact .inr ⟨_, _, rfl, .refl _, rfl⟩
    refine (mem_tagsOfAll content h).imp_right ?_
    rintro ⟨node, hnode, e, d, he, hd, rfl⟩
    exact ⟨⟨tag', content⟩, d, rfl, .inside (List.mem_filterMap.2 ⟨node, hnode, he⟩) hd, rfl⟩
  | .text .. | .comment .. | .instruction .. => fun h => .inl h

theorem mem_tagsOfAll {tag : Xml.Tag} {seen : List Xml.Tag} : (nodes : List Xml.Node) → tag ∈ tagsOfAll seen nodes →
    tag ∈ seen ∨ ∃ node ∈ nodes, ∃ e d : Xml.Element, node.toElement? = some e ∧ d.Within e ∧ d.tag = tag
  | [] => fun h => .inl h
  | node :: later => by
    intro h
    rw [tagsOfAll] at h
    rcases mem_tagsOfAll later h with h | ⟨node', hnode, h⟩
    · refine (mem_tagsFrom node h).imp_right fun h => ⟨node, List.mem_cons_self, h⟩
    · exact .inr ⟨node', List.mem_cons_of_mem _ hnode, h⟩

end

end Schema

end XmlSchema
