import XmlSchema.Proofs.Schema.Models

/-!
Groups in any order. The bounds of such a group are checked where the group itself stands, and so are those of its
members, but not where it is referred to by name: there it takes any bounds that the reference tells.
-/

namespace XmlSchema.Schema

variable {root : Xml.Element} {schema : Schema}

/-- A group in any order that stands where it is read occurs at most once, and a group that is referred to occurs as
often as some reference to its name tells. -/
def OccursAsRead (root : Xml.Element) : Particle → Prop
  | .group .all _ o none => o.max = some 1 ∧ o.min ≤ 1
  | .group _ _ o (some name) => ∃ i : Item, i.From root ∧ i.is "group" = true ∧ i.RefersTo name ∧ occurs i = .ok o
  | _ => True

theorem grants_occursAsRead {r : Registry} (hr : r.From root) (s : Scope) : r.Grants s (OccursAsRead root) where
  named := fun _ _ _ => trivial
  inside := fun _ _ _ _ _ _ _ => trivial
  wildcard := fun _ _ => trivial
  own := by
    intro compositor members o hall
    cases compositor with
    | sequence | choice => trivial
    | all => exact hall rfl
  reference := by
    intro owner i compositor members o name hi hgroup hname ho
    have hread : ∃ i : Item, i.From root ∧ i.is "group" = true ∧ i.RefersTo name ∧ occurs i = .ok o :=
      ⟨i, hi.from hr, hgroup, hname, ho⟩
    cases compositor <;> exact hread

theorem min_le_of_isRange {o : Occurs} (h : o.IsRange) (hmax : o.max = some 1) : o.min ≤ 1 := by
  rw [Occurs.IsRange, hmax] at h
  exact h 1 rfl

/-- The members of a group in any order are single elements that occur at most once. The group occurs at most once
itself, unless it is referred to by name: then it occurs as often as the reference tells. -/
theorem ofElement_allGroups (h : ofElement root = .ok schema) {members : List Particle} {occurs : Occurs}
    {source : Option Name} (hp : schema.HasParticle (.group .all members occurs source)) :
    (∀ m ∈ members, ∃ name key o, m = .element name key o ∧ o.max = some 1 ∧ o.min ≤ 1) ∧
    (source = none → occurs.max = some 1 ∧ occurs.min ≤ 1) ∧
    ∀ name, source = some name →
      ∃ i : Item, i.From root ∧ i.is "group" = true ∧ i.RefersTo name ∧ Schema.occurs i = .ok occurs := by
  obtain ⟨r, hr⟩ := exists_registry h
  obtain ⟨table, htells⟩ := ofElement_tells h
  have hread := ofElement_particles h hr (grants_occursAsRead (from_of_ofRoot hr) _) _ hp
  obtain ⟨x, model, hx, hmodel, hpart⟩ := hp
  have hsound := (htells.sound hx).model model hmodel
  refine ⟨fun m hm => ?_, ?_, ?_⟩
  · obtain ⟨name, key, o, rfl, hmax⟩ := Particle.isSingle_iff.1 (hsound.singles members occurs source hpart m hm)
    have hmember : .element name key o ∈ model.parts :=
      mem_parts_trans (Particle.mem_parts_group.2 (.inr ⟨_, hm, Particle.mem_parts_self _⟩)) hpart
    exact ⟨name, key, o, rfl, hmax, min_le_of_isRange (hsound.ranges _ hmember) hmax⟩
  · rintro rfl
    exact hread
  · rintro name rfl
    exact hread

/-- A toolbox holds two or three sets of tools, each a saw and perhaps a hammer. -/
def toolSchema : Xml.Element :=
  let node (kind : Text) (attributes : List (Text × Text)) (content : List Xml.Node) : Xml.Node :=
    .element (schemaTag kind attributes) content
  ⟨schemaTag "schema" [], [
    node "group" [("name", "tools")] [node "all" [] [
      node "element" [("name", "hammer"), ("minOccurs", "0")] [], node "element" [("name", "saw")] []]],
    node "complexType" [("name", "toolbox")]
      [node "group" [("ref", "tools"), ("minOccurs", "2"), ("maxOccurs", "3")] []]]⟩

/-- How often a type holds a group in any order, if that is what its content is, and where the group comes from. -/
def allGroup? : TypeDefinition → Option (Occurs × Option Name)
  | .simple _ => none
  | .complex x => match x.content.model? with
    | some (.group .all _ o source) => some (o, source)
    | _ => none

theorem allGroup?_eq_some {type : TypeDefinition} {o : Occurs} {source : Option Name}
    (h : allGroup? type = some (o, source)) :
    ∃ x members, type = .complex x ∧ x.content.model? = some (.group .all members o source) := by
  cases type with
  | simple => cases h
  | complex x =>
      rw [allGroup?] at h
      split at h
      · next members _ _ hmodel =>
          cases h
          exact ⟨x, members, rfl, hmodel⟩
      · cases h

theorem ofElement_allGroups_tool : ∃ schema members, ofElement toolSchema = .ok schema ∧
    schema.HasParticle (.group .all members ⟨2, some 3⟩ (some ⟨[], "tools"⟩)) ∧
    (∀ m ∈ members, ∃ name key o, m = .element name key o ∧ o.max = some 1 ∧ o.min ≤ 1) ∧
    ∃ i : Item, i.From toolSchema ∧ i.is "group" = true ∧ i.RefersTo ⟨[], "tools"⟩ ∧ occurs i = .ok ⟨2, some 3⟩ := by
  have hread : (ofElement toolSchema).toOption.map (fun s => (s.types.lookup ⟨[], "toolbox"⟩).bind allGroup?) =
      some (some (⟨2, some 3⟩, some ⟨[], "tools"⟩)) := by decide +kernel
  obtain ⟨schema, h, hread⟩ := Build.exists_of_map_toOption hread
  obtain ⟨type, hlookup, htype⟩ := Option.bind_eq_some_iff.1 hread
  obtain ⟨x, members, rfl, hmodel⟩ := allGroup?_eq_some htype
  have hp : schema.HasParticle (.group .all members ⟨2, some 3⟩ (some ⟨[], "tools"⟩)) :=
    ⟨x, _, .type _ _ (mem_of_lookup hlookup), hmodel, Particle.mem_parts_self _⟩
  obtain ⟨hmembers, _, hreference⟩ := ofElement_allGroups h hp
  exact ⟨schema, members, h, hp, hmembers, hreference _ rfl⟩

end XmlSchema.Schema
