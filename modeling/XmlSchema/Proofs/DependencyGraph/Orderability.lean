import XmlSchema.Proofs.DependencyGraph.Cycles

/-!
A graph has an order exactly if it has no cycle. Nodes are taken out when all that need them have been, and each is put
before those: so the order that remains at the end has every node behind what it needs.
-/

namespace XmlSchema.DependencyGraph

variable {α : Type} [DecidableEq α] {g : DependencyGraph α} {a b : α}

theorem mem_keys_of_mem_needs (h : b ∈ g.needs a) : a ∈ g.keys := by
  rcases g.needs_cases a with hmem | he
  · exact mem_keys.2 ⟨_, hmem, rfl⟩
  · rw [he] at h
    exact absurd h List.not_mem_nil

/-- Behind each node stand all that need it. -/
def IsArranged (g : DependencyGraph α) : List α → Prop
  | [] => True
  | a :: later => (∀ c ∈ g.keys, a ∈ g.needs c → c ∈ later) ∧ g.IsArranged later

/-- A node is free when all that need it are taken. -/
theorem Peeling.taken_of_needs {demands : List (α × Nat)} {free taken : List α}
    (h : g.Peeling demands (a :: free) taken) : ∀ c ∈ g.keys, a ∈ g.needs c → c ∈ taken := by
  intro c hc hneeds
  have hidle : g.demand taken a = 0 := (h.idle a (h.subset List.mem_cons_self)).2 List.mem_cons_self
  by_contra hn
  have hpos := demand_pos_iff.2 ⟨c, hc, hn, hneeds⟩
  omega

theorem Peeling.isArranged_peel (hp : g.IsProper) {demands : List (α × Nat)} {free taken : List α}
    (h : g.Peeling demands free taken) (htaken : g.IsArranged taken) (count : Nat) :
    g.IsArranged (g.peel count demands free taken) := by
  induction count generalizing demands free taken with
  | zero => rwa [DependencyGraph.peel]
  | succ count ih =>
      cases free with
      | nil => simpa [DependencyGraph.peel] using htaken
      | cons a free =>
          rw [DependencyGraph.peel]
          exact ih (h.step hp) ⟨h.taken_of_needs, htaken⟩

theorem order_eq_some (hp : g.IsProper) {order : List α} (h : g.order? = some order) :
    order.Perm g.keys ∧ g.IsArranged order := by
  obtain ⟨demands, free, hpeel, _⟩ := (Peeling.start hp).peel hp g.nodes.length
  obtain ⟨hlength, htaken⟩ := Option.ite_none_right_eq_some.1 h
  have harranged := (Peeling.start hp).isArranged_peel hp trivial g.nodes.length
  rw [Option.some.inj htaken] at hpeel hlength harranged
  refine ⟨hpeel.subperm.perm_of_length_le ?_, harranged⟩
  rw [hlength, keys, List.length_map]

theorem IsArranged.mem_of_needs {order : List α} (h : g.IsArranged order) (ha : a ∈ g.keys) (hb : b ∈ order)
    (hneeds : b ∈ g.needs a) : a ∈ order := by
  induction order with
  | nil => exact absurd hb List.not_mem_nil
  | cons c later ih =>
      rcases List.mem_cons.1 hb with rfl | hb
      · exact List.mem_cons_of_mem b (h.1 a ha hneeds)
      · exact List.mem_cons_of_mem c (ih h.2 hb)

/-- What a node needs comes before it. -/
theorem IsArranged.idxOf_lt {order : List α} (h : g.IsArranged order) (hnodup : order.Nodup) (ha : a ∈ g.keys)
    (hb : b ∈ order) (hneeds : b ∈ g.needs a) : order.idxOf b < order.idxOf a := by
  induction order with
  | nil => exact absurd hb List.not_mem_nil
  | cons c later ih =>
      obtain ⟨hbehind, hlater⟩ := h
      obtain ⟨hc, hnodup⟩ := List.nodup_cons.1 hnodup
      rcases List.mem_cons.1 hb with rfl | hb
      · have hne : b ≠ a := (ne_of_mem_of_not_mem (hbehind a ha hneeds) hc).symm
        rw [List.idxOf_cons_self, List.idxOf_cons_ne _ hne]
        omega
      · have hne : c ≠ a := (ne_of_mem_of_not_mem (hlater.mem_of_needs ha hb hneeds) hc).symm
        have hlt := ih hlater hnodup hb
        rw [List.idxOf_cons_ne _ hne, List.idxOf_cons_ne _ (ne_of_mem_of_not_mem hb hc).symm]
        omega

theorem idxOf_lt_of_order (hp : g.IsProper) {order : List α} (h : g.order? = some order) (hneeds : b ∈ g.needs a) :
    order.idxOf b < order.idxOf a := by
  obtain ⟨hperm, harranged⟩ := order_eq_some hp h
  have hb : b ∈ order := hperm.mem_iff.2 (hp.mem_keys_of_needs hneeds)
  exact harranged.idxOf_lt (hperm.nodup_iff.2 hp.keys) (mem_keys_of_mem_needs hneeds) hb hneeds

theorem acyclic_of_order (hp : g.IsProper) {order : List α} (h : g.order? = some order) (a : α) :
    ¬ Relation.TransGen (fun b c => c ∈ g.needs b) a a := by
  -- along a way through what is needed, places in the order only get less
  have hway {b : α} (hb : Relation.TransGen (fun b c => c ∈ g.needs b) a b) : order.idxOf b < order.idxOf a := by
    induction hb with
    | single hneeds => exact idxOf_lt_of_order hp h hneeds
    | tail _ hneeds ih => exact (idxOf_lt_of_order hp h hneeds).trans ih
  exact fun hcycle => Nat.lt_irrefl _ (hway hcycle)

theorem isSome_order_iff (hp : g.IsProper) : g.order?.isSome = true ↔ g.cycle? = none := by
  constructor
  · intro h
    obtain ⟨order, horder⟩ := Option.isSome_iff_exists.1 h
    exact (cycle_eq_none_iff hp).2 (acyclic_of_order hp horder)
  · intro h
    obtain ⟨order, horder, _⟩ := exists_order hp h
    exact Option.isSome_iff_exists.2 ⟨order, horder⟩

/-- All that is mentioned stands in the order, once, and each node behind what it needs. -/
structure IsOrder (mentions : List (Mention α)) (order : List α) : Prop where
  nodup : order.Nodup
  complete : ∀ a, a ∈ order ↔ ∃ m ∈ mentions, a ∈ m.nodes
  before : ∀ a b, Mention.Needs mentions a b → order.idxOf b < order.idxOf a

/-- Of all that can be mentioned, in any order: it has an order exactly if no cycle is found. -/
theorem order_exact (mentions : List (Mention α)) :
    ((ofMentions mentions).order?.isSome = true ↔ (ofMentions mentions).cycle? = none) ∧
    ∀ order, (ofMentions mentions).order? = some order → IsOrder mentions order := by
  have hp := isProper_ofMentions mentions
  refine ⟨isSome_order_iff hp, fun order h => ?_⟩
  obtain ⟨hperm, _⟩ := order_eq_some hp h
  exact ⟨hperm.nodup_iff.2 hp.keys, fun a => hperm.mem_iff.trans mem_keys_ofMentions, fun a b hneeds =>
    idxOf_lt_of_order hp h (mem_needs_ofMentions.2 hneeds)⟩

/-- A node that is only needed, and one that nobody needs. -/
theorem order_exact_diamond :
    let mentions : List (Mention Nat) := [.need 1 2, .need 1 3, .need 2 4, .node 5, .need 3 4, .need 1 2]
    (ofMentions mentions).cycle? = none ∧
    ∃ order, (ofMentions mentions).order? = some order ∧ IsOrder mentions order := by
  intro mentions
  have horder : (ofMentions mentions).order? = some [4, 3, 2, 5, 1] := by decide
  refine ⟨(order_exact mentions).1.1 ?_, _, horder, (order_exact mentions).2 _ horder⟩
  rw [horder]
  rfl

end XmlSchema.DependencyGraph
