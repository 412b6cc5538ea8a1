import Mathlib.Data.Fintype.Card
import Mathlib.Data.Set.Finite.Basic
import Mathlib.Logic.Relation
import Mathlib.Order.WellFounded
import XmlSchema.Proofs.DependencyGraph.Search

/-!
The order of a graph without cycles. Nodes are taken out that no node left needs, which only comes to an end when all
are taken.
-/

namespace XmlSchema.DependencyGraph

variable {α : Type} [DecidableEq α] {g : DependencyGraph α} {a b : α}

/-! ### Demands -/

/-- How many of the nodes that are not taken need a node. -/
def demand (g : DependencyGraph α) (taken : List α) (a : α) : Nat :=
  g.keys.countP fun c => c ∉ taken ∧ a ∈ g.needs c

theorem demand_pos_iff {taken : List α} : 0 < g.demand taken a ↔ ∃ c ∈ g.keys, c ∉ taken ∧ a ∈ g.needs c := by
  simp [demand, List.countP_pos_iff]

theorem demand_cons (hk : g.keys.Nodup) {taken : List α} (ha : a ∈ g.keys) (hn : a ∉ taken) (b : α) :
    g.demand taken b = g.demand (a :: taken) b + if b ∈ g.needs a then 1 else 0 := by
  have hperm := List.perm_cons_erase ha
  have hrest : a ∉ g.keys.erase a := fun h => (List.nodup_cons.1 (hperm.nodup_iff.1 hk)).1 h
  have hcongr : (g.keys.erase a).countP (fun c => c ∉ taken ∧ b ∈ g.needs c) =
      (g.keys.erase a).countP (fun c => c ∉ a :: taken ∧ b ∈ g.needs c) := by
    refine List.countP_congr fun c hc => ?_
    have hne : c ≠ a := fun he => hrest (he ▸ hc)
    simp [hne]
  rw [demand, demand, hperm.countP_eq, hperm.countP_eq, List.countP_cons, List.countP_cons, hcongr]
  simp [hn]

omit [DecidableEq α] in
theorem count_flatMap_snd [BEq α] [LawfulBEq α] {nodes : List (α × List α)} (h : ∀ node ∈ nodes, node.2.Nodup) (a : α) :
    (nodes.flatMap Prod.snd).count a = nodes.countP fun node => node.2.contains a := by
  induction nodes with
  | nil => rfl
  | cons node nodes ih =>
      obtain ⟨hnode, hnodes⟩ := List.forall_mem_cons.1 h
      rw [List.flatMap_cons, List.count_append, List.countP_cons, ih hnodes, hnode.count, Nat.add_comm]
      simp

theorem lookup_map_of_mem {β : Type} (f : α → β) {l : List α} (h : a ∈ l) :
    (l.map fun a => (a, f a)).lookup a = some (f a) := by
  induction l with
  | nil => exact absurd h List.not_mem_nil
  | cons c l ih =>
      rw [List.map_cons, List.lookup_cons]
      by_cases he : a = c
      · subst he
        simp
      · rw [beq_false_of_ne he]
        exact ih ((List.mem_cons.1 h).resolve_left he)

theorem lookup_demands (hp : g.IsProper) (ha : a ∈ g.keys) : g.demands.lookup a = some (g.demand [] a) := by
  have hcount : (g.nodes.flatMap Prod.snd).count a = g.demand [] a := by
    rw [count_flatMap_snd hp.needs, demand, keys, List.countP_map]
    refine List.countP_congr fun node hnode => ?_
    rw [Function.comp_apply, needs_of_mem hp.keys hnode]
    simp
  rw [← hcount]
  exact lookup_map_of_mem _ ha

theorem lookup_lower (demands : List (α × Nat)) (a b : α) :
    (lower demands a).lookup b = (demands.lookup b).map fun n => if b = a then n - 1 else n := by
  induction demands with
  | nil => rfl
  | cons d demands ih =>
      obtain ⟨c, n⟩ := d
      have hcons : lower ((c, n) :: demands) a = (c, if c = a then n - 1 else n) :: lower demands a := by
        by_cases h : c = a <;> simp [lower, h]
      rw [hcons, List.lookup_cons, List.lookup_cons]
      by_cases he : b = c
      · subst he
        simp
      · rw [beq_false_of_ne he]
        exact ih

theorem lookup_release {l : List α} (hl : l.Nodup) (demands : List (α × Nat)) (b : α) :
    (release demands l).1.lookup b = (demands.lookup b).map fun n => if b ∈ l then n - 1 else n := by
  induction l generalizing demands with
  | nil => simp [release]
  | cons a l ih =>
      obtain ⟨ha, hl⟩ := List.nodup_cons.1 hl
      rw [release]
      simp only
      rw [ih hl, lookup_lower, Option.map_map]
      congr 1
      funext n
      by_cases hb : b = a
      · subst hb
        simp [ha]
      · simp [hb]

theorem mem_freed {l : List α} (hl : l.Nodup) (demands : List (α × Nat)) (b : α) :
    b ∈ (release demands l).2 ↔ b ∈ l ∧ (release demands l).1.lookup b = some 0 := by
  induction l generalizing demands with
  | nil => simp [release]
  | cons a l ih =>
      have hrelease := lookup_release hl demands
      obtain ⟨ha, hl⟩ := List.nodup_cons.1 hl
      have hlast : (release demands (a :: l)).1 = (release (lower demands a) l).1 := rfl
      have hself : (release (lower demands a) l).1.lookup a = (lower demands a).lookup a := by
        rw [lookup_release hl]
        simp [ha]
      rw [hlast, release]
      simp only
      split
      · next h =>
          rw [List.mem_cons, ih hl, List.mem_cons, or_and_right]
          refine or_congr_left ?_
          constructor
          · rintro rfl
            exact ⟨rfl, hself.trans h⟩
          · exact And.left
      · next h =>
          rw [ih hl, List.mem_cons, or_and_right, or_iff_right]
          rintro ⟨rfl, h'⟩
          exact h (hself.symm.trans h')

theorem sublist_freed (demands : List (α × Nat)) (l : List α) : (release demands l).2.Sublist l := by
  induction l generalizing demands with
  | nil => exact .slnil
  | cons a l ih =>
      rw [release]
      simp only
      split
      · exact (ih _).cons_cons a
      · exact (ih _).cons a

/-! ### Taking nodes out -/

/-- What holds while nodes are taken out: the demands are those of the nodes left, and the nodes without demand are
those that are taken or free. -/
structure Peeling (g : DependencyGraph α) (demands : List (α × Nat)) (free taken : List α) : Prop where
  demands : ∀ a ∈ g.keys, demands.lookup a = some (g.demand taken a)
  nodup : (free ++ taken).Nodup
  subset : free ++ taken ⊆ g.keys
  idle : ∀ a ∈ g.keys, g.demand taken a = 0 ↔ a ∈ free ++ taken

theorem mem_idle_demands (hp : g.IsProper) : a ∈ idle g.demands ↔ a ∈ g.keys ∧ g.demand [] a = 0 := by
  have hmem : a ∈ idle g.demands ↔ a ∈ g.keys ∧ (g.nodes.flatMap Prod.snd).count a = 0 := by
    simp only [idle, DependencyGraph.demands, List.mem_map, List.mem_filter, decide_eq_true_eq]
    constructor
    · rintro ⟨_, ⟨⟨c, hc, rfl⟩, hn⟩, rfl⟩
      exact ⟨hc, hn⟩
    · rintro ⟨ha, hn⟩
      exact ⟨_, ⟨⟨a, ha, rfl⟩, hn⟩, rfl⟩
  rw [hmem]
  refine and_congr_right fun ha => ?_
  have h₁ := lookup_demands hp ha
  have h₂ : g.demands.lookup a = some ((g.nodes.flatMap Prod.snd).count a) := lookup_map_of_mem _ ha
  rw [Option.some.inj (h₂.symm.trans h₁)]

theorem Peeling.start (hp : g.IsProper) : g.Peeling g.demands (DependencyGraph.idle g.demands) [] := by
  constructor
  · exact fun a ha => lookup_demands hp ha
  · rw [List.append_nil]
    have hkeys : (g.demands.map Prod.fst) = g.keys := by
      rw [DependencyGraph.demands, List.map_map]
      exact List.map_id g.keys
    exact (hkeys ▸ hp.keys).sublist (List.filter_sublist.map Prod.fst)
  · intro a ha
    rw [List.append_nil] at ha
    exact ((mem_idle_demands hp).1 ha).1
  · intro a ha
    rw [List.append_nil, mem_idle_demands hp, and_iff_right ha]

theorem Peeling.step (hp : g.IsProper) {demands : List (α × Nat)} {free taken : List α}
    (h : g.Peeling demands (a :: free) taken) :
    g.Peeling (release demands (g.needs a)).1 (free ++ (release demands (g.needs a)).2) (a :: taken) := by
  have ha : a ∈ g.keys := h.subset List.mem_cons_self
  obtain ⟨hnotin, hnodup⟩ := List.nodup_cons.1 h.nodup
  have hn : a ∉ taken := fun hmem => hnotin (List.mem_append_right _ hmem)
  have hdemand := demand_cons hp.keys ha hn
  have hdemands : ∀ b ∈ g.keys, (release demands (g.needs a)).1.lookup b = some (g.demand (a :: taken) b) := by
    intro b hb
    rw [lookup_release (hp.nodup_needs a), h.demands b hb, Option.map_some, hdemand b]
    congr 1
    split <;> omega
  have hfreed (b : α) : b ∈ (release demands (g.needs a)).2 ↔ b ∈ g.needs a ∧ g.demand (a :: taken) b = 0 := by
    rw [mem_freed (hp.nodup_needs a)]
    refine and_congr_right fun hb => ?_
    rw [hdemands b (hp.mem_keys_of_needs hb), Option.some.injEq]
  -- what is freed was in demand before
  have hnew : ∀ b ∈ (release demands (g.needs a)).2, b ∉ a :: (free ++ taken) := by
    intro b hb hmem
    obtain ⟨hneeds, _⟩ := (hfreed b).1 hb
    have hzero := (h.idle b (h.subset hmem)).2 hmem
    rw [hdemand b, if_pos hneeds] at hzero
    omega
  have hperm : (free ++ (release demands (g.needs a)).2 ++ a :: taken).Perm
      ((release demands (g.needs a)).2 ++ a :: (free ++ taken)) := by
    refine (List.perm_append_comm.append_right _).trans ?_
    rw [List.append_assoc]
    exact List.perm_middle.append_left _
  refine ⟨hdemands, ?_, ?_, ?_⟩
  · rw [hperm.nodup_iff]
    exact ((hp.nodup_needs a).sublist (sublist_freed _ _)).append h.nodup fun b hb hb' => hnew b hb hb'
  · intro b hb
    rcases List.mem_append.1 (hperm.mem_iff.1 hb) with hb | hb
    · exact hp.mem_keys_of_needs ((hfreed b).1 hb).1
    · exact h.subset hb
  · intro b hb
    rw [hperm.mem_iff, List.mem_append, hfreed b]
    have hidle := h.idle b hb
    rw [List.cons_append] at hidle
    rw [← hidle, hdemand b]
    by_cases hneeds : b ∈ g.needs a <;> simp [hneeds]

theorem Peeling.peel (hp : g.IsProper) {demands : List (α × Nat)} {free taken : List α}
    (h : g.Peeling demands free taken) (count : Nat) :
    ∃ demands' free', g.Peeling demands' free' (g.peel count demands free taken) ∧
      (free' = [] ∨ (g.peel count demands free taken).length = taken.length + count) := by
  induction count generalizing demands free taken with
  | zero => exact ⟨demands, free, by rwa [DependencyGraph.peel], .inr (by rw [DependencyGraph.peel]; rfl)⟩
  | succ count ih =>
      cases free with
      | nil => exact ⟨demands, [], by simpa [DependencyGraph.peel] using h, .inl rfl⟩
      | cons a free =>
          obtain ⟨demands', free', hpeel, hend⟩ := ih (h.step hp)
          refine ⟨demands', free', hpeel, hend.imp_right fun hlen => ?_⟩
          rw [DependencyGraph.peel, hlen, List.length_cons]
          omega

/-! ### The order -/

/-- Among grounded nodes there is always one that no other needs. -/
theorem exists_demand_eq_zero (hg : ∀ a ∈ g.keys, g.Grounded a) {taken : List α} (ha : a ∈ g.keys) (hn : a ∉ taken) :
    ∃ b ∈ g.keys, b ∉ taken ∧ g.demand taken b = 0 := by
  let Left := {b // b ∈ g.keys ∧ b ∉ taken}
  let above : Left → Left → Prop := fun c b => Relation.TransGen (fun b c => b ∈ g.needs c) b.1 c.1
  have : Finite Left := (g.keys.finite_toSet.subset fun b hb => hb.1).to_subtype
  have : IsTrans Left above := ⟨fun a b c hab hbc => hbc.trans hab⟩
  have : Std.Irrefl above := ⟨fun b hb => (hg b.1 b.2.1).not_transGen_self hb⟩
  obtain ⟨b, _, hmin⟩ := (Finite.wellFounded_of_trans_of_irrefl above).has_min Set.univ ⟨⟨a, ha, hn⟩, trivial⟩
  refine ⟨b.1, b.2.1, b.2.2, ?_⟩
  by_contra hpos
  obtain ⟨c, hc, hcn, hneeds⟩ := demand_pos_iff.1 (Nat.pos_of_ne_zero hpos)
  exact hmin ⟨c, hc, hcn⟩ trivial (.single hneeds)

/-- Where no way through what is needed leads back, every node is grounded. -/
theorem grounded_of_acyclic (hp : g.IsProper) (h : ∀ a, ¬ Relation.TransGen (fun b c => b ∈ g.needs c) a a)
    (ha : a ∈ g.keys) : g.Grounded a := by
  let Node := {b // b ∈ g.keys}
  let below : Node → Node → Prop := fun b c => Relation.TransGen (fun b c => b ∈ g.needs c) b.1 c.1
  have : Finite Node := g.keys.finite_toSet.to_subtype
  have : IsTrans Node below := ⟨fun a b c hab hbc => hab.trans hbc⟩
  have : Std.Irrefl below := ⟨fun b => h b.1⟩
  have hwell : WellFounded below := Finite.wellFounded_of_trans_of_irrefl below
  have hall (b : Node) : g.Grounded b.1 := by
    induction b using hwell.induction with
    | _ b ih => exact .intro _ fun c hc => ih ⟨c, hp.mem_keys_of_needs hc⟩ (.single hc)
  exact hall ⟨a, ha⟩

theorem Peeling.subperm {demands : List (α × Nat)} {free taken : List α} (h : g.Peeling demands free taken) :
    taken.Subperm g.keys :=
  (List.nodup_append.1 h.nodup).2.1.subperm fun _ ha => h.subset (List.mem_append_right free ha)

/-- A graph without cycles has an order, in which every node stands once. -/
theorem exists_order (hp : g.IsProper) (h : g.cycle? = none) : ∃ order, g.order? = some order ∧ order.Perm g.keys := by
  obtain ⟨demands, free, hpeel, hend⟩ := (Peeling.start hp).peel hp g.nodes.length
  rw [order?]
  generalize g.peel g.nodes.length g.demands (idle g.demands) [] = taken at hpeel hend
  have hall : g.keys ⊆ taken := by
    rcases hend with rfl | hlength
    · intro a ha
      by_contra hn
      obtain ⟨b, hb, hn, hzero⟩ := exists_demand_eq_zero (fun a ha => grounded_of_cycle_eq_none hp h ha) ha hn
      exact hn ((hpeel.idle b hb).1 hzero)
    · have hlength' : g.keys.length ≤ taken.length := by simp [hlength, keys]
      exact (hpeel.subperm.perm_of_length_le hlength').symm.subset
  have hlength : taken.length = g.nodes.length := by
    have h₁ := hpeel.subperm.length_le
    have h₂ := (hp.keys.subperm hall).length_le
    simp only [keys, List.length_map] at h₁ h₂
    omega
  refine ⟨taken, if_pos hlength, hpeel.subperm.perm_of_length_le ?_⟩
  simp [keys, hlength]

end XmlSchema.DependencyGraph
