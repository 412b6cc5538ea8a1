import XmlSchema.Proofs.Schema.SimpleTypes
import XmlSchema.Proofs.SimpleType.Checks
import XmlSchema.Proofs.Text.WhiteSpace
import XmlSchema.Proofs.Value.Equality

/-!
Lists in a schema. A list type has a type of items and no bounds, so a text is a value of it if each of its tokens is
one of the item type, and the facets of every step allow the number of tokens and the tokens one space apart.
-/

namespace XmlSchema

/-- The facets have no problem with a list of these tokens. -/
structure Facets.AllowsTokens (f : Facets) (tokens : List Text) : Prop where
  length : f.AllowsLength tokens.length
  patterns : f.patterns = [] ∨ ∃ p ∈ f.patterns, p.isMatch (Text.join " " tokens) = true
  enumeration : ∀ allowed, f.enumeration = some allowed → ∃ l ∈ allowed, l.value = .text (Text.join " " tokens)

theorem Facets.check_tokens_eq_nil_iff {f : Facets} (hbounds : ∀ kind, f.bound? kind = none) {tokens : List Text} :
    f.check (Text.join " " tokens) (.text (Text.join " " tokens)) (some tokens.length) .items = [] ↔
      f.AllowsTokens tokens := by
  have hbound (kind : BoundKind) :
      checkBound kind (f.bound? kind) (Text.join " " tokens) (.text (Text.join " " tokens)) = [] := by
    rw [hbounds kind, checkBound_none]
  rw [check_eq_nil_iff, checkPatterns_eq_nil_iff, checkEnumeration_eq_nil_iff]
  simp only [Option.mem_some_iff, forall_eq', Value.equal_text]
  exact ⟨fun ⟨hpatterns, henumeration, hlength, _, _⟩ => ⟨hlength, hpatterns, henumeration⟩,
    fun ⟨hlength, hpatterns, henumeration⟩ => ⟨hpatterns, henumeration, hlength, hbound, rfl⟩⟩

namespace SimpleType

/-! ### Items -/

/-- The item type of a list, which is that of the nearest step that has one. -/
def itemType? (t : SimpleType) : Option SimpleType := t.chain.reverse.findSome? item?

theorem itemType?_restriction (name : Option Name) (base : SimpleType) (facets : Facets) :
    (restriction name base facets).itemType? = base.itemType? := by
  rw [itemType?, chain, List.reverse_append]
  rfl

/-- The items of a list are the runs of its text. -/
theorem listItems_collapse {text : Text} {tokens : List Text} (h : WhiteSpace.HasRuns text tokens) :
    listItems (WhiteSpace.collapse.apply text) = tokens := by
  rw [h.collapse_eq, listItems]
  cases tokens with
  | nil => rfl
  | cons token tokens =>
      have hne : (Text.join " " (token :: tokens)).isEmpty = false := by
        rw [List.isEmpty_eq_false_iff, Text.join]
        exact List.append_ne_nil_of_left_ne_nil (h.isRun token List.mem_cons_self).1 _
      rw [hne, if_neg Bool.false_ne_true]
      exact Text.splitOn_join (fun run hrun => (h.isRun run hrun).notMem) (List.cons_ne_nil token tokens)

variable {t top item : SimpleType} {steps : List Facets} {text : Text} {tokens : List Text}

/-- A list is checked item by item, and then as a whole at every step. -/
theorem checkFrom_of_itemType (hitem : t.itemType? = some item) (htokens : WhiteSpace.HasRuns text tokens) :
    checkFrom t top steps text = tokens.flatMap item.check ++
      checkSteps (t.chain.map facets ++ steps) (Text.join " " tokens) (some tokens.length) .items := by
  induction t using induct generalizing steps with
  | primitive p => cases p <;> cases hitem
  | restriction name base facets ih =>
      rw [itemType?_restriction] at hitem
      rw [checkFrom, ih hitem, chain, List.map_append, List.append_assoc]
      rfl
  | list name item' facets =>
      cases item' with
      | none => cases hitem
      | some item' =>
          cases hitem
          rw [checkFrom, listItems_collapse htokens, htokens.collapse_eq]
          rfl
  | union => cases hitem

/-! ### Lists that were built -/

theorem Builtin.eq_listOf_of_mem {t : SimpleType} (h : t ∈ all) (hlist : t.variety = .list) :
    ∃ name item, t = listOf name item := by
  rcases mem_all_cases t h with ⟨p, rfl⟩ | ⟨name, base, _, facets, rfl, hbase, _⟩ | ⟨name, item, _, rfl⟩
  · exact Variety.noConfusion hlist
  · exact Variety.noConfusion (hbase.symm.trans hlist)
  · exact ⟨name, item, rfl⟩

theorem IsBuilt.exists_itemType (ht : t.IsBuilt) (hlist : t.variety = .list) : ∃ item, t.itemType? = some item := by
  induction ht with
  | builtin h =>
      obtain ⟨name, item, rfl⟩ := Builtin.eq_listOf_of_mem h hlist
      exact ⟨item, rfl⟩
  | restriction _ _ ih =>
      rw [itemType?_restriction]
      exact ih hlist
  | @list name item => exact ⟨item, rfl⟩
  | union => exact Variety.noConfusion hlist

theorem IsBuilt.bound?_eq_none (ht : t.IsBuilt) (hlist : t.variety = .list) :
    ∀ u ∈ t.chain, ∀ kind, u.facets.bound? kind = none := by
  induction ht with
  | builtin h =>
      obtain ⟨name, item, rfl⟩ := Builtin.eq_listOf_of_mem h hlist
      intro u hu kind
      rw [List.mem_singleton.1 hu]
      cases kind <;> rfl
  | @restriction name base facets _ hfacets ih =>
      have hstep (kind : BoundKind) : facets.bound? kind = none := by
        refine Option.eq_none_iff_forall_not_mem.2 fun l hl => ?_
        have hatomic := (hfacets.bounds kind l hl).atomic
        exact Variety.noConfusion (hatomic.symm.trans hlist)
      rw [chain, List.forall_mem_append, List.forall_mem_singleton]
      exact ⟨ih hlist, hstep⟩
  | list =>
      intro u hu kind
      rw [List.mem_singleton.1 hu]
      cases kind <;> rfl
  | union => exact Variety.noConfusion hlist

theorem IsBuilt.check_eq_nil_iff (ht : t.IsBuilt) (hlist : t.variety = .list) (hitem : t.itemType? = some item)
    (htokens : WhiteSpace.HasRuns text tokens) : t.check text = [] ↔
      (∀ token ∈ tokens, item.check token = []) ∧ ∀ u ∈ t.chain, u.facets.AllowsTokens tokens := by
  rw [check, checkFrom_of_itemType hitem htokens, List.append_nil, List.append_eq_nil_iff, List.flatMap_eq_nil_iff,
    checkSteps, List.flatMap_eq_nil_iff, List.forall_mem_map]
  refine and_congr_right' (forall₂_congr fun u hu => ?_)
  exact Facets.check_tokens_eq_nil_iff (ht.bound?_eq_none hlist u hu)

end SimpleType

namespace Schema

/-- Every list type of a schema has a type of items. A text is a value of the list if every token of it, which is a run
of characters other than spaces, is one of the item type, and each step of the list allows the tokens. -/
theorem lists_checked_by_token {root : Xml.Element} {schema : Schema} (h : ofElement root = .ok schema)
    {t : SimpleType} (ht : schema.Holds (.simple t)) (hlist : t.variety = .list) :
    ∃ item, t.itemType? = some item ∧ ∀ text, ∃ tokens, WhiteSpace.HasRuns text tokens ∧ (t.check text = [] ↔
      (∀ token ∈ tokens, item.check token = []) ∧ ∀ u ∈ t.chain, u.facets.AllowsTokens tokens) := by
  have hbuilt : t.IsBuilt := ofElement_isBuilt h ht
  obtain ⟨item, hitem⟩ := hbuilt.exists_itemType hlist
  refine ⟨item, hitem, fun text => ?_⟩
  obtain ⟨tokens, htokens⟩ := WhiteSpace.exists_hasRuns text
  exact ⟨tokens, htokens, hbuilt.check_eq_nil_iff hlist hitem htokens⟩

/-- Two switches, each on, off or unknown. -/
def switchSchema : Xml.Element :=
  let node (kind : Text) (attributes : List (Text × Text)) (content : List Xml.Node) : Xml.Node :=
    .element (schemaTag kind attributes) content
  ⟨schemaTag "schema" [], [
    node "simpleType" [("name", "switch")] [
      node "union" [("memberTypes", "xs:boolean unknown")] []],
    node "simpleType" [("name", "unknown")] [
      node "restriction" [("base", "xs:string")] [node "enumeration" [("value", "?")] []]],
    node "simpleType" [("name", "switches")] [node "list" [("itemType", "switch")] []],
    node "simpleType" [("name", "pair")] [
      node "restriction" [("base", "switches")] [node "length" [("value", "2")] []]]]⟩

theorem lists_checked_by_token_switch : ∃ schema t item, ofElement switchSchema = .ok schema ∧
    schema.Holds (.simple t) ∧ t.variety = .list ∧ t.itemType? = some item ∧
    WhiteSpace.HasRuns " true\n?" ["true", "?"] ∧ (∀ token ∈ (["true", "?"] : List Text), item.check token = []) ∧
    ∀ u ∈ t.chain, u.facets.AllowsTokens ["true", "?"] := by
  have hpair : (ofElement switchSchema).toOption.map (fun s => (s.types.lookup ⟨[], "pair"⟩).bind fun type =>
      type.simpleType?.map fun t => (t.variety, (t.check " true\n?").isEmpty)) = some (some (.list, true)) := by
    decide +kernel
  obtain ⟨schema, t, h, ht, hpair⟩ := exists_simpleType hpair
  obtain ⟨hlist, hcheck⟩ := Prod.mk.inj hpair
  obtain ⟨item, hitem, htexts⟩ := lists_checked_by_token h ht hlist
  obtain ⟨tokens, htokens, hiff⟩ := htexts " true\n?"
  have hwords : WhiteSpace.tokens (WhiteSpace.spaced " true\n?") = ["true", "?"] := by decide
  obtain rfl : (["true", "?"] : List Text) = tokens := hwords.symm.trans (WhiteSpace.hasRuns_iff.1 htokens)
  obtain ⟨hitems, hsteps⟩ := hiff.1 (List.isEmpty_iff.1 hcheck)
  exact ⟨schema, t, item, h, ht, hlist, hitem, htokens, hitems, hsteps⟩

end Schema

end XmlSchema
