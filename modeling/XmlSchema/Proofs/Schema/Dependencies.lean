import XmlSchema.Proofs.DependencyGraph.Order
import XmlSchema.Proofs.Schema.Registration

/-!
What definitions refer to, as a graph. It says of the same definitions the same in whatever order they are registered,
so whether they can be ordered does not depend on this; and every definition has its turn once.
-/

namespace XmlSchema.Schema

variable {r r' : Registry}

/-! ### Graphs -/

section

variable {α : Type} [DecidableEq α]

theorem mem_keys_foldl_add (g : DependencyGraph α) (l : List α) (hg : g.IsProper) :
    (l.foldl DependencyGraph.add g).IsProper ∧ (∀ b, b ∈ (l.foldl DependencyGraph.add g).keys ↔ b ∈ g.keys ∨ b ∈ l) ∧
      ∀ b, (l.foldl DependencyGraph.add g).needs b = g.needs b := by
  induction l generalizing g with
  | nil => simpa using hg
  | cons a l ih =>
      obtain ⟨hproper, hkeys, hneeds⟩ := ih (g.add a) (hg.add a)
      refine ⟨hproper, fun b => ?_, fun b => ?_⟩
      · rw [List.foldl_cons, hkeys, DependencyGraph.mem_keys_add, List.mem_cons, or_assoc]
      · rw [List.foldl_cons, hneeds, DependencyGraph.needs_add]

theorem foldl_require (g : DependencyGraph α) {a : α} (ha : a ∈ g.keys) {needs : List α} (hsubset : needs ⊆ g.keys)
    (hg : g.IsProper) : (needs.foldl (fun g k => g.require a k) g).IsProper ∧
      (∀ b, b ∈ (needs.foldl (fun g k => g.require a k) g).keys ↔ b ∈ g.keys) ∧
      ∀ b c, c ∈ (needs.foldl (fun g k => g.require a k) g).needs b ↔ c ∈ g.needs b ∨ b = a ∧ c ∈ needs := by
  induction needs generalizing g with
  | nil => simpa using hg
  | cons k needs ih =>
      obtain ⟨hk, hsubset⟩ := List.cons_subset.1 hsubset
      have hkeys (b : α) : b ∈ (g.require a k).keys ↔ b ∈ g.keys := by
        rw [DependencyGraph.mem_keys_require, or_assoc, or_iff_left_iff_imp]
        rintro (rfl | rfl)
        · exact ha
        · exact hk
      obtain ⟨hproper, hkeys', hneeds⟩ := ih (g.require a k) ((hkeys a).2 ha) (fun b hb => (hkeys b).2 (hsubset hb))
        (hg.require a k)
      refine ⟨hproper, fun b => (hkeys' b).trans (hkeys b), fun b c => ?_⟩
      rw [List.foldl_cons, hneeds, DependencyGraph.mem_needs_require, List.mem_cons, or_assoc, ← and_or_left]

end

namespace Registry

/-- One definition refers to another one. -/
def RefersTo (r : Registry) (a b : DefinitionKey) : Prop :=
  ∃ d ∈ r.definitions, d.key = a ∧ (∃ refs, references d.content = .ok refs ∧ b ∈ refs) ∧
    b ∈ r.definitions.map (·.key)

structure HasGraph (r : Registry) (g : DependencyGraph DefinitionKey) : Prop where
  proper : g.IsProper
  keys : ∀ k, k ∈ g.keys ↔ k ∈ r.definitions.map (·.key)
  needs : ∀ a b, b ∈ g.needs a ↔ r.RefersTo a b

/-- Records what a definition refers to, as far as it is among `keys`. -/
def note (keys : List DefinitionKey) (g : DependencyGraph DefinitionKey) (d : Definition) :
    Build (DependencyGraph DefinitionKey) := do
  return ((← references d.content).filter keys.contains).foldl (fun g k => g.require d.key k) g

theorem foldlM_note_ok {keys : List DefinitionKey} {ds : List Definition} {g g' : DependencyGraph DefinitionKey}
    (hg : g.IsProper) (hkeys : ∀ k, k ∈ g.keys ↔ k ∈ keys) (hds : ∀ d ∈ ds, d.key ∈ keys)
    (h : ds.foldlM (note keys) g = .ok g') : g'.IsProper ∧ (∀ k, k ∈ g'.keys ↔ k ∈ keys) ∧
      (∀ d ∈ ds, ∃ refs, references d.content = .ok refs) ∧
      ∀ a b, b ∈ g'.needs a ↔ b ∈ g.needs a ∨
        ∃ d ∈ ds, d.key = a ∧ (∃ refs, references d.content = .ok refs ∧ b ∈ refs) ∧ b ∈ keys := by
  induction ds generalizing g with
  | nil =>
      cases h
      exact ⟨hg, hkeys, by simp, by simp⟩
  | cons d ds ih =>
      obtain ⟨hd, hds⟩ := List.forall_mem_cons.1 hds
      rw [List.foldlM_cons] at h
      obtain ⟨g₁, hg₁, h⟩ := Build.bind_eq_ok.1 h
      obtain ⟨refs, hrefs, hg₁⟩ := Build.bind_eq_ok.1 hg₁
      cases hg₁
      have hsubset : refs.filter keys.contains ⊆ g.keys := fun k hk =>
        (hkeys k).2 (by simpa using (List.mem_filter.1 hk).2)
      obtain ⟨hproper₁, hkeys₁, hneeds₁⟩ := foldl_require g ((hkeys d.key).2 hd) hsubset hg
      obtain ⟨hproper, hkeys', hreferences, hneeds⟩ := ih hproper₁ (fun k => (hkeys₁ k).trans (hkeys k)) hds h
      refine ⟨hproper, hkeys', List.forall_mem_cons.2 ⟨⟨refs, hrefs⟩, hreferences⟩, fun a b => ?_⟩
      simp only [hneeds, hneeds₁, List.mem_cons, exists_eq_or_imp, hrefs, Except.ok.injEq, exists_eq_left', or_assoc,
        List.mem_filter, List.contains_iff_mem, eq_comm (a := a)]

theorem graph_ok {g : DependencyGraph DefinitionKey} (h : r.graph = .ok g) :
    r.HasGraph g ∧ ∀ d ∈ r.definitions, ∃ refs, references d.content = .ok refs := by
  obtain ⟨hproper, hkeys, hneeds⟩ := mem_keys_foldl_add DependencyGraph.empty (r.definitions.map (·.key))
    DependencyGraph.isProper_empty
  obtain ⟨hproper', hkeys', hreferences, hneeds'⟩ := foldlM_note_ok hproper
    (fun k => (hkeys k).trans (or_iff_right List.not_mem_nil)) (fun d hd => List.mem_map_of_mem hd) h
  refine ⟨⟨hproper', hkeys', fun a b => ?_⟩, hreferences⟩
  rw [hneeds', hneeds]
  exact or_iff_right List.not_mem_nil

theorem exists_graph (h : ∀ d ∈ r.definitions, ∃ refs, references d.content = .ok refs) : ∃ g, r.graph = .ok g := by
  change ∃ g, r.definitions.foldlM (note (r.definitions.map (·.key))) _ = .ok g
  refine DependencyGraph.exists_foldlM_ok (fun d hd g => ?_) _
  obtain ⟨refs, hrefs⟩ := h d hd
  exact ⟨_, Build.bind_eq_ok.2 ⟨refs, hrefs, rfl⟩⟩

/-- Definitions have an order in which they can be read if no way of references leads back. -/
theorem order_ok_iff {line : Nat} {order : List DefinitionKey} : r.order line = .ok order ↔
    ∃ g, r.graph = .ok g ∧ g.cycle? = none ∧ g.order? = some order := by
  rw [Registry.order, Build.bind_eq_ok]
  refine exists_congr fun g => and_congr_right fun hg => ?_
  cases hc : g.cycle? with
  | some cycle => simp
  | none =>
      obtain ⟨order', ho, _⟩ := DependencyGraph.exists_order (graph_ok hg).1.proper hc
      simp [ho]

theorem exists_graph_order {line : Nat} {order : List DefinitionKey} (h : r.order line = .ok order) :
    ∃ g, r.HasGraph g ∧ order.Perm g.keys := by
  obtain ⟨g, hg, hc, ho⟩ := order_ok_iff.1 h
  obtain ⟨hgraph, _⟩ := graph_ok hg
  obtain ⟨order', ho', hperm⟩ := DependencyGraph.exists_order hgraph.proper hc
  cases ho.symm.trans ho'
  exact ⟨g, hgraph, hperm⟩

theorem order_ok {line : Nat} {order : List DefinitionKey} (h : r.order line = .ok order) :
    ∀ d ∈ r.definitions, d.key ∈ order := by
  obtain ⟨g, hgraph, hperm⟩ := exists_graph_order h
  exact fun d hd => hperm.mem_iff.2 ((hgraph.keys d.key).2 (List.mem_map_of_mem hd))

theorem order_perm {line : Nat} {order : List DefinitionKey} (h : r.order line = .ok order) (hr : r.Distinct) :
    order.Perm (r.definitions.map (·.key)) := by
  obtain ⟨g, hgraph, hperm⟩ := exists_graph_order h
  exact hperm.trans ((List.perm_ext_iff_of_nodup hgraph.proper.keys hr.definitions).2 hgraph.keys)

theorem RefersTo.congr (h : r.Alike r') {a b : DefinitionKey} (hab : r.RefersTo a b) : r'.RefersTo a b := by
  obtain ⟨d, hd, hkey, hrefs, hb⟩ := hab
  exact ⟨d, h.definitions.mem_iff.1 hd, hkey, hrefs, (h.definitions.map _).mem_iff.1 hb⟩

/-- What definitions refer to can be told, and no way of references leads back. -/
structure IsOrderable (r : Registry) : Prop where
  references : ∀ d ∈ r.definitions, ∃ refs, references d.content = .ok refs
  acyclic : ∀ key, ¬ Relation.TransGen r.RefersTo key key

theorem IsOrderable.congr (h : r.Alike r') (hr : r.IsOrderable) : r'.IsOrderable where
  references d hd := hr.references d (h.definitions.mem_iff.2 hd)
  acyclic := by
    have hrefers : r'.RefersTo = r.RefersTo := by
      funext a b
      exact propext ⟨.congr h.symm, .congr h⟩
    exact hrefers ▸ hr.acyclic

theorem HasGraph.needs_eq {g : DependencyGraph DefinitionKey} (h : r.HasGraph g) :
    (fun b a => b ∈ g.needs a) = Function.swap r.RefersTo := by
  funext b a
  exact propext (h.needs a b)

theorem exists_order_iff {line : Nat} : (∃ order, r.order line = .ok order) ↔ r.IsOrderable := by
  constructor
  · rintro ⟨order, ho⟩
    obtain ⟨g, hg, hc, _⟩ := order_ok_iff.1 ho
    obtain ⟨hgraph, hreferences⟩ := graph_ok hg
    refine ⟨hreferences, fun key hkey => ?_⟩
    obtain ⟨_, ⟨d, hd, rfl, _⟩, _⟩ := Relation.TransGen.head'_iff.1 hkey
    have hmem : d.key ∈ g.keys := (hgraph.keys d.key).2 (List.mem_map_of_mem hd)
    have hgrounded := DependencyGraph.grounded_of_cycle_eq_none hgraph.proper hc hmem
    refine hgrounded.not_transGen_self ?_
    rw [hgraph.needs_eq]
    exact Relation.transGen_swap.2 hkey
  · intro h
    obtain ⟨g, hg⟩ := exists_graph h.references
    obtain ⟨hgraph, _⟩ := graph_ok hg
    have hacyclic : ∀ key, ¬ Relation.TransGen (fun b a => b ∈ g.needs a) key key := by
      rw [hgraph.needs_eq]
      exact fun key hkey => h.acyclic key (Relation.transGen_swap.1 hkey)
    have hc := DependencyGraph.cycle_eq_none_of_grounded
      fun a ha => DependencyGraph.grounded_of_acyclic hgraph.proper hacyclic ha
    obtain ⟨order, ho, _⟩ := DependencyGraph.exists_order hgraph.proper hc
    exact ⟨order, order_ok_iff.2 ⟨g, hg, hc, ho⟩⟩

/-- In whatever order definitions are registered, they have an order in which they can be read. -/
theorem order_alike (h : r.Alike r') {line line' : Nat} {order : List DefinitionKey} (ho : r.order line = .ok order) :
    ∃ order', r'.order line' = .ok order' :=
  exists_order_iff.2 ((exists_order_iff.1 ⟨order, ho⟩).congr h)

end Registry

end XmlSchema.Schema
