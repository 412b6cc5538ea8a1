import Mathlib.Data.List.Chain
import XmlSchema.Proofs.DependencyGraph.Order

/-!
The search for a cycle is exact. Of whatever is recorded, in whatever order, it finds none if there is none, and
otherwise a closed walk that meets no node twice on its way.
-/

namespace XmlSchema.DependencyGraph

variable {α : Type}

/-! ### What is recorded -/

/-- What a graph is told of: a node, or that a node needs another one. -/
inductive Mention (α : Type) where
  | node (a : α)
  | need (a needed : α)

namespace Mention

def nodes : Mention α → List α
  | node a => [a]
  | need a needed => [a, needed]

/-- Among what is mentioned is that `a` needs `b`. -/
def Needs (mentions : List (Mention α)) (a b : α) : Prop := need a b ∈ mentions

end Mention

variable [DecidableEq α] {g : DependencyGraph α} {a b : α} {mentions : List (Mention α)}

def record (g : DependencyGraph α) : Mention α → DependencyGraph α
  | .node a => g.add a
  | .need a needed => g.require a needed

def ofMentions (mentions : List (Mention α)) : DependencyGraph α := mentions.foldl record empty

theorem IsProper.record (hp : g.IsProper) (m : Mention α) : (g.record m).IsProper := by
  cases m with
  | node a => exact hp.add a
  | need a needed => exact hp.require a needed

theorem mem_keys_record {m : Mention α} : a ∈ (g.record m).keys ↔ a ∈ g.keys ∨ a ∈ m.nodes := by
  cases m with
  | node b => rw [record, mem_keys_add, Mention.nodes, List.mem_singleton]
  | need b needed => rw [record, mem_keys_require, Mention.nodes, List.mem_pair, or_assoc]

theorem mem_needs_record {m : Mention α} : b ∈ (g.record m).needs a ↔ b ∈ g.needs a ∨ .need a b = m := by
  cases m with
  | node c => simp [record, needs_add]
  | need c needed => rw [record, mem_needs_require, Mention.need.injEq]

theorem isProper_ofMentions (mentions : List (Mention α)) : (ofMentions mentions).IsProper :=
  List.foldlRecOn mentions record isProper_empty fun _ hp m _ => hp.record m

theorem mem_keys_ofMentions : a ∈ (ofMentions mentions).keys ↔ ∃ m ∈ mentions, a ∈ m.nodes := by
  have hfold (g : DependencyGraph α) :
      a ∈ (mentions.foldl record g).keys ↔ a ∈ g.keys ∨ ∃ m ∈ mentions, a ∈ m.nodes := by
    induction mentions generalizing g with
    | nil => simp
    | cons m mentions ih => rw [List.foldl_cons, ih, mem_keys_record, or_assoc, List.exists_mem_cons_iff]
  rw [ofMentions, hfold]
  exact or_iff_right List.not_mem_nil

theorem mem_needs_ofMentions : b ∈ (ofMentions mentions).needs a ↔ Mention.Needs mentions a b := by
  have hfold (g : DependencyGraph α) :
      b ∈ (mentions.foldl record g).needs a ↔ b ∈ g.needs a ∨ Mention.Needs mentions a b := by
    induction mentions generalizing g with
    | nil => simp [Mention.Needs]
    | cons m mentions ih =>
        rw [List.foldl_cons, ih, mem_needs_record, or_assoc, Mention.Needs, Mention.Needs, List.mem_cons]
  rw [ofMentions, hfold]
  exact or_iff_right List.not_mem_nil

/-! ### Cycles that are found -/

/-- A walk along what is needed that ends where it starts, and meets no node twice before. -/
structure IsCycle (needs : α → α → Prop) (l : List α) : Prop where
  two_le : 2 ≤ l.length
  closed : l.head? = l.getLast?
  distinct : l.dropLast.Nodup
  walk : l.IsChain needs

/-- What a search keeps of the way to a node `a`, the last node of which comes first: each node needs the one before it,
the last one needs `a`, and no node is met twice. -/
structure IsWay (g : DependencyGraph α) (path : List α) (a : α) : Prop where
  walk : (a :: path).IsChain fun b c => b ∈ g.needs c
  distinct : path.Nodup

theorem IsWay.start (g : DependencyGraph α) (a : α) : g.IsWay [] a := ⟨.singleton a, .nil⟩

theorem IsWay.step {path : List α} (h : g.IsWay path a) (ha : a ∉ path) (hb : b ∈ g.needs a) :
    g.IsWay (a :: path) b := ⟨.cons_cons hb h.walk, List.nodup_cons.2 ⟨ha, h.distinct⟩⟩

theorem closed_eq_reverse (path : List α) (a : α) : closed path a = (a :: path.takeWhile (· ≠ a) ++ [a]).reverse := by
  simp [closed]

/-- The way back to a node that is on the way already. -/
theorem IsWay.isCycle_closed {path : List α} (h : g.IsWay path a) (ha : a ∈ path) :
    IsCycle (fun b c => c ∈ g.needs b) (closed path a) := by
  obtain ⟨before, behind, rfl, hbefore⟩ := List.eq_append_cons_of_mem ha
  have htake : (before ++ a :: behind).takeWhile (· ≠ a) = before := by
    have hne : ∀ c ∈ before, decide (c ≠ a) = true := fun c hc => decide_eq_true (ne_of_mem_of_not_mem hc hbefore)
    rw [List.takeWhile_append_of_pos hne]
    simp
  have hclosed : closed (before ++ a :: behind) a = (a :: before.reverse) ++ [a] := by
    rw [closed, htake, List.cons_append]
  constructor
  · simp [hclosed]
  · rw [hclosed, List.getLast?_concat]
    rfl
  · rw [hclosed, List.dropLast_concat, List.nodup_cons, List.mem_reverse, List.nodup_reverse]
    exact ⟨hbefore, (List.nodup_append.1 h.distinct).1⟩
  · rw [closed_eq_reverse, htake, List.isChain_reverse]
    have hwalk := h.walk
    rw [← List.cons_append] at hwalk
    exact hwalk.prefix ((List.prefix_append_right_inj _).2 ⟨behind, rfl⟩)

theorem exists_error_of_foldlM {β γ ε : Type} {step : γ → β → Except ε γ} {l : List β} {c : γ} {e : ε}
    (h : l.foldlM step c = .error e) : ∃ b ∈ l, ∃ c', step c' b = .error e := by
  induction l generalizing c with
  | nil => exact nomatch h
  | cons b l ih =>
      rw [List.foldlM_cons] at h
      cases hb : step c b with
      | error e' =>
          rw [hb] at h
          cases h
          exact ⟨b, List.mem_cons_self, c, hb⟩
      | ok c' =>
          rw [hb] at h
          obtain ⟨b', hb', hstep⟩ := ih h
          exact ⟨b', List.mem_cons_of_mem b hb', hstep⟩

theorem isCycle_of_visit {depth : Nat} {path known cycle : List α} (hway : g.IsWay path a)
    (h : g.visit depth path known a = .error cycle) : IsCycle (fun b c => c ∈ g.needs b) cycle := by
  induction depth generalizing path known a with
  | zero => cases h
  | succ depth ih =>
      rw [visit] at h
      split at h
      · next ha =>
          cases h
          exact hway.isCycle_closed ha
      split at h
      · cases h
      · next ha _ =>
          cases hf : (g.needs a).foldlM (g.visit depth (a :: path)) known with
          | ok known' => simp [hf, bind, Except.bind, pure, Except.pure] at h
          | error cycle' =>
              rw [hf] at h
              cases h
              obtain ⟨b, hb, known', hvisit⟩ := exists_error_of_foldlM hf
              exact ih (hway.step ha hb) hvisit

theorem isCycle_of_cycle {cycle : List α} (h : g.cycle? = some cycle) : IsCycle (fun b c => c ∈ g.needs b) cycle := by
  rw [cycle?] at h
  split at h
  · cases h
  · next hf =>
      cases h
      obtain ⟨a, _, known, hvisit⟩ := exists_error_of_foldlM hf
      exact isCycle_of_visit (.start g a) hvisit

theorem cycle_eq_none_iff (hp : g.IsProper) :
    g.cycle? = none ↔ ∀ a, ¬ Relation.TransGen (fun b c => c ∈ g.needs b) a a := by
  constructor
  · intro h a hcycle
    -- a node on a cycle is needed, and so a node of the graph
    obtain ⟨b, _, hneeds⟩ := Relation.TransGen.tail'_iff.1 hcycle
    have hground := grounded_of_cycle_eq_none hp h (hp.mem_keys_of_needs hneeds)
    exact hground.not_transGen_self (Relation.transGen_swap.2 hcycle)
  · intro h
    exact cycle_eq_none_of_grounded fun a ha =>
      grounded_of_acyclic hp (fun b hcycle => h b (Relation.transGen_swap.1 hcycle)) ha

/-- Of all that can be mentioned, in any order: no cycle is found exactly if there is none, and what is found is one. -/
theorem cycle_exact (mentions : List (Mention α)) :
    ((ofMentions mentions).cycle? = none ↔ ∀ a, ¬ Relation.TransGen (Mention.Needs mentions) a a) ∧
    ∀ cycle, (ofMentions mentions).cycle? = some cycle → IsCycle (Mention.Needs mentions) cycle := by
  have hneeds : (fun a b => b ∈ (ofMentions mentions).needs a) = Mention.Needs mentions := by
    funext a b
    exact propext mem_needs_ofMentions
  rw [← hneeds]
  exact ⟨cycle_eq_none_iff (isProper_ofMentions mentions), fun _ => isCycle_of_cycle⟩

/-- The way into a cycle is not part of it. -/
theorem cycle_exact_lead :
    let mentions : List (Mention Nat) := [.need 1 2, .node 5, .need 2 3, .need 3 4, .need 4 2]
    (ofMentions mentions).cycle? = some [2, 3, 4, 2] ∧ IsCycle (Mention.Needs mentions) [2, 3, 4, 2] ∧
      ∃ a, Relation.TransGen (Mention.Needs mentions) a a := by
  intro mentions
  have hcycle : (ofMentions mentions).cycle? = some [2, 3, 4, 2] := by decide
  refine ⟨hcycle, (cycle_exact mentions).2 _ hcycle, ?_⟩
  by_contra hnone
  rw [not_exists, ← (cycle_exact mentions).1, hcycle] at hnone
  exact nomatch hnone

end XmlSchema.DependencyGraph
