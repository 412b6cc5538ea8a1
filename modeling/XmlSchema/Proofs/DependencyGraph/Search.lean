import Mathlib.Data.List.Nodup
import Mathlib.Data.List.Perm.Subperm
import Mathlib.Logic.Relation
import XmlSchema.DependencyGraph

/-!
The search for a cycle. Where it finds none, every node is grounded: no way through what is needed goes on for ever.
-/

namespace XmlSchema.DependencyGraph

variable {α : Type} [DecidableEq α] {g : DependencyGraph α} {a b : α}

/-- Every node stands once, mentions what it needs once, and needs only nodes. -/
structure IsProper (g : DependencyGraph α) : Prop where
  keys : g.keys.Nodup
  needs : ∀ node ∈ g.nodes, node.2.Nodup
  closed : ∀ node ∈ g.nodes, ∀ b ∈ node.2, b ∈ g.keys

omit [DecidableEq α] in
theorem mem_keys : a ∈ g.keys ↔ ∃ node ∈ g.nodes, node.1 = a := List.mem_map

theorem contains_iff : g.contains a = true ↔ a ∈ g.keys := by
  rw [contains, List.any_eq_true, mem_keys]
  simp

theorem needs_cases (g : DependencyGraph α) (a : α) : (a, g.needs a) ∈ g.nodes ∨ g.needs a = [] := by
  rw [needs]
  split
  · next b l h =>
      left
      obtain rfl : b = a := by simpa using List.find?_some h
      exact List.mem_of_find?_eq_some h
  · exact .inr rfl

theorem needs_of_mem (hk : g.keys.Nodup) {l : List α} (h : (a, l) ∈ g.nodes) : g.needs a = l := by
  rw [needs]
  split
  · next b l' hf =>
      obtain rfl : b = a := by simpa using List.find?_some hf
      exact congrArg Prod.snd (List.inj_on_of_nodup_map hk (List.mem_of_find?_eq_some hf) h rfl)
  · next hf => exact absurd (List.find?_eq_none.1 hf _ h) (by simp)

theorem IsProper.mem_keys_of_needs (hp : g.IsProper) (h : b ∈ g.needs a) : b ∈ g.keys := by
  rcases g.needs_cases a with hmem | he
  · exact hp.closed _ hmem b h
  · rw [he] at h
    exact absurd h List.not_mem_nil

theorem IsProper.nodup_needs (hp : g.IsProper) (a : α) : (g.needs a).Nodup := by
  rcases g.needs_cases a with hmem | he
  · exact hp.needs _ hmem
  · rw [he]
    exact List.nodup_nil

/-! ### Building -/

omit [DecidableEq α] in
theorem isProper_empty : (empty : DependencyGraph α).IsProper :=
  ⟨List.nodup_nil, fun _ h => absurd h List.not_mem_nil, fun _ h => absurd h List.not_mem_nil⟩

theorem mem_keys_add : b ∈ (g.add a).keys ↔ b ∈ g.keys ∨ b = a := by
  rw [add]
  split
  · next h =>
      refine ⟨.inl, fun hb => hb.elim id ?_⟩
      rintro rfl
      exact contains_iff.1 h
  · simp [keys]

theorem IsProper.add (hp : g.IsProper) (a : α) : (g.add a).IsProper := by
  rw [DependencyGraph.add]
  split
  · exact hp
  · next h =>
      have ha : a ∉ g.keys := fun hmem => h (contains_iff.2 hmem)
      constructor
      · rw [DependencyGraph.keys, List.map_append]
        exact hp.keys.append (List.nodup_singleton a) (List.disjoint_singleton.2 ha)
      · intro node hnode
        rcases List.mem_append.1 hnode with hnode | hnode
        · exact hp.needs node hnode
        · rw [List.mem_singleton.1 hnode]
          exact List.nodup_nil
      · intro node hnode b hb
        rcases List.mem_append.1 hnode with hnode | hnode
        · exact List.mem_map.2 ((List.mem_map.1 (hp.closed node hnode b hb)).imp fun n hn =>
            ⟨List.mem_append_left _ hn.1, hn.2⟩)
        · rw [List.mem_singleton.1 hnode] at hb
          exact absurd hb List.not_mem_nil

theorem fst_addNeed (a needed : α) (node : α × List α) : (addNeed a needed node).1 = node.1 := by
  obtain ⟨b, known⟩ := node
  by_cases h : b = a ∧ needed ∉ known <;> simp [addNeed, h]

theorem snd_addNeed (a needed : α) (node : α × List α) :
    (addNeed a needed node).2 = node.2 ∨ needed ∉ node.2 ∧ (addNeed a needed node).2 = node.2 ++ [needed] := by
  obtain ⟨b, known⟩ := node
  by_cases h : b = a ∧ needed ∉ known
  · exact .inr ⟨h.2, by simp [addNeed, h]⟩
  · exact .inl (by simp [addNeed, h])

theorem keys_require (a needed : α) : (g.require a needed).keys = ((g.add a).add needed).keys := by
  rw [require, keys, keys, List.map_map]
  exact List.map_congr_left fun node _ => fst_addNeed a needed node

theorem mem_keys_require {needed : α} : b ∈ (g.require a needed).keys ↔ (b ∈ g.keys ∨ b = a) ∨ b = needed := by
  rw [keys_require, mem_keys_add, mem_keys_add]

theorem IsProper.require (hp : g.IsProper) (a needed : α) : (g.require a needed).IsProper := by
  have hp' := (hp.add a).add needed
  constructor
  · rw [keys_require]
    exact hp'.keys
  · intro node hnode
    obtain ⟨node, hmem, rfl⟩ := List.mem_map.1 hnode
    rcases snd_addNeed a needed node with h | ⟨hn, h⟩ <;> rw [h]
    · exact hp'.needs node hmem
    · exact (hp'.needs node hmem).append (List.nodup_singleton needed) (List.disjoint_singleton.2 hn)
  · intro node hnode b hb
    obtain ⟨node, hmem, rfl⟩ := List.mem_map.1 hnode
    rw [keys_require]
    rcases snd_addNeed a needed node with h | ⟨hn, h⟩ <;> rw [h] at hb
    · exact hp'.closed node hmem b hb
    · rcases List.mem_append.1 hb with hb | hb
      · exact hp'.closed node hmem b hb
      · exact mem_keys_add.2 (.inr (List.mem_singleton.1 hb))

theorem needs_eq (g : DependencyGraph α) (b : α) :
    g.needs b = ((g.nodes.find? fun node => node.1 = b).map Prod.snd).getD [] := by
  rw [needs]
  split
  · next h => exact (congrArg (fun found : Option (α × List α) => (found.map Prod.snd).getD []) h).symm
  · next h => exact (congrArg (fun found : Option (α × List α) => (found.map Prod.snd).getD []) h).symm

theorem needs_add (g : DependencyGraph α) (a b : α) : (g.add a).needs b = g.needs b := by
  rw [add]
  split
  · rfl
  · rw [needs_eq, needs_eq, List.find?_append]
    cases g.nodes.find? fun node => node.1 = b with
    | some node => rfl
    | none => by_cases h : a = b <;> simp [h]

/-- What a node needs after a need has been recorded. -/
theorem mem_needs_require {needed c : α} : c ∈ (g.require a needed).needs b ↔ c ∈ g.needs b ∨ b = a ∧ c = needed := by
  have hkey (node : α × List α) : (addNeed a needed node).1 = b ↔ node.1 = b := by rw [fst_addNeed]
  have hfind : (g.require a needed).nodes.find? (fun node => node.1 = b) =
      (((g.add a).add needed).nodes.find? fun node => node.1 = b).map (addNeed a needed) := by
    rw [require, List.find?_map]
    congr 2
    funext node
    exact decide_eq_decide.2 (hkey node)
  rw [← needs_add g a, ← needs_add (g.add a) needed, needs_eq, hfind, needs_eq]
  cases hf : ((g.add a).add needed).nodes.find? fun node => node.1 = b with
  | none =>
      refine ⟨fun h => absurd h List.not_mem_nil, ?_⟩
      rintro (h | ⟨rfl, rfl⟩)
      · exact absurd h List.not_mem_nil
      · have hmem : b ∈ ((g.add b).add c).keys := mem_keys_add.2 (.inl (mem_keys_add.2 (.inr rfl)))
        obtain ⟨node, hnode, hb⟩ := mem_keys.1 hmem
        exact absurd hb (by simpa using List.find?_eq_none.1 hf node hnode)
  | some node =>
      obtain ⟨b', known⟩ := node
      obtain rfl : b' = b := by simpa using List.find?_some hf
      simp only [Option.map_some]
      rw [addNeed]
      by_cases h : b' = a
      · by_cases hc : c = needed <;> by_cases hn : needed ∈ known <;> simp [h, hc, hn]
      · simp [h]

/-! ### The search -/

/-- No way through what is needed goes on for ever from the node. -/
def Grounded (g : DependencyGraph α) (a : α) : Prop := Acc (fun b c => b ∈ g.needs c) a

/-- What a search that finds no cycle knows afterwards: what it knew before and where it started, all of it grounded. -/
structure Learns (g : DependencyGraph α) (starts known known' : List α) : Prop where
  keeps : ∀ b ∈ known, b ∈ known'
  starts : ∀ a ∈ starts, a ∈ known'
  grounded : ∀ b ∈ known', g.Grounded b

theorem learns_foldlM {visit : List α → α → Except (List α) (List α)} {l known known' : List α}
    (hvisit : ∀ a ∈ l, ∀ known known', (∀ b ∈ known, g.Grounded b) → visit known a = .ok known' →
      g.Learns [a] known known')
    (hknown : ∀ b ∈ known, g.Grounded b) (h : l.foldlM visit known = .ok known') : g.Learns l known known' := by
  induction l generalizing known with
  | nil =>
      cases h
      exact ⟨fun _ hb => hb, by simp, hknown⟩
  | cons a l ih =>
      obtain ⟨ha, hl⟩ := List.forall_mem_cons.1 hvisit
      rw [List.foldlM_cons] at h
      cases hv : visit known a with
      | error cycle => simp [hv, bind, Except.bind] at h
      | ok known₁ =>
          rw [hv] at h
          have h₁ := ha known known₁ hknown hv
          have h₂ := ih hl h₁.grounded h
          refine ⟨fun b hb => h₂.keeps b (h₁.keeps b hb), List.forall_mem_cons.2 ⟨?_, h₂.starts⟩, h₂.grounded⟩
          exact h₂.keeps a (h₁.starts a List.mem_cons_self)

/-- The nodes on the way to a node are all different, so that there is depth enough for every way. -/
theorem learns_visit (hp : g.IsProper) {depth : Nat} {path known known' : List α} (hpath : path.Nodup)
    (hkeys : path ⊆ g.keys) (ha : a ∈ g.keys) (hdepth : path.length + depth = g.keys.length + 1)
    (hknown : ∀ b ∈ known, g.Grounded b) (h : g.visit depth path known a = .ok known') : g.Learns [a] known known' := by
  induction depth generalizing path known known' a with
  | zero =>
      have := (hpath.subperm hkeys).length_le
      omega
  | succ depth ih =>
      rw [visit] at h
      split at h
      · exact nomatch h
      split at h
      · next hmem =>
          cases h
          exact ⟨fun _ hb => hb, by simpa using hmem, hknown⟩
      · next hmem _ =>
          cases hf : (g.needs a).foldlM (g.visit depth (a :: path)) known with
          | error cycle => simp [hf, bind, Except.bind] at h
          | ok known₁ =>
              rw [hf] at h
              cases h
              have h₁ := learns_foldlM (fun b hb known known' hk hv => ih (List.nodup_cons.2 ⟨hmem, hpath⟩)
                (List.cons_subset.2 ⟨ha, hkeys⟩) (hp.mem_keys_of_needs hb)
                (by rw [List.length_cons]; omega) hk hv) hknown hf
              have hground : g.Grounded a := Acc.intro a fun b hb => h₁.grounded b (h₁.starts b hb)
              exact ⟨fun b hb => List.mem_cons_of_mem _ (h₁.keeps b hb), by simp,
                List.forall_mem_cons.2 ⟨hground, h₁.grounded⟩⟩

theorem grounded_of_cycle_eq_none (hp : g.IsProper) (h : g.cycle? = none) (ha : a ∈ g.keys) : g.Grounded a := by
  rw [cycle?] at h
  split at h
  · next known hf =>
      have hl := learns_foldlM (g := g) (fun a ha known known' hk hv => learns_visit hp List.nodup_nil
        (List.nil_subset _) ha (by simp [keys]) hk hv) (by simp) hf
      exact hl.grounded a (hl.starts a ha)
  · exact nomatch h

/-! ### Graphs without cycles -/

theorem not_transGen_self_of_acc {β : Type} {r : β → β → Prop} {b : β} (h : Acc r b) : ¬ Relation.TransGen r b b := by
  induction Acc.transGen h with
  | intro b _ ih => exact fun hcycle => ih b hcycle (h.inv_of_transGen hcycle) hcycle

theorem Grounded.not_transGen_self (h : g.Grounded a) : ¬ Relation.TransGen (fun b c => b ∈ g.needs c) a a :=
  not_transGen_self_of_acc h

theorem exists_foldlM_ok {β γ ε : Type} {step : γ → β → Except ε γ} {l : List β}
    (hstep : ∀ b ∈ l, ∀ c, ∃ c', step c b = .ok c') (c : γ) : ∃ c', l.foldlM step c = .ok c' := by
  induction l generalizing c with
  | nil => exact ⟨c, rfl⟩
  | cons b l ih =>
      obtain ⟨hb, hl⟩ := List.forall_mem_cons.1 hstep
      obtain ⟨c₁, hc₁⟩ := hb c
      obtain ⟨c', hc'⟩ := ih hl c₁
      refine ⟨c', ?_⟩
      rw [List.foldlM_cons, hc₁]
      exact hc'

/-- A visit of a grounded node finds no cycle, since no way leads from the node back to itself. -/
theorem exists_visit_ok {depth : Nat} {path known : List α} (ha : g.Grounded a)
    (hpath : ∀ b ∈ path, Relation.TransGen (fun b c => b ∈ g.needs c) a b) :
    ∃ known', g.visit depth path known a = .ok known' := by
  induction depth generalizing path known a with
  | zero => exact ⟨known, rfl⟩
  | succ depth ih =>
      rw [visit, if_neg fun hmem => ha.not_transGen_self (hpath a hmem)]
      split
      · exact ⟨known, rfl⟩
      · have hneeds : ∀ b ∈ g.needs a, ∀ known, ∃ known', g.visit depth (a :: path) known b = .ok known' := by
          intro b hb known
          refine ih (ha.inv hb) (List.forall_mem_cons.2 ⟨.single hb, fun c hc => .head hb (hpath c hc)⟩)
        obtain ⟨known', hknown'⟩ := exists_foldlM_ok hneeds known
        exact ⟨a :: known', by rw [hknown']; rfl⟩

theorem cycle_eq_none_of_grounded (h : ∀ a ∈ g.keys, g.Grounded a) : g.cycle? = none := by
  obtain ⟨known, hknown⟩ : ∃ known, g.keys.foldlM (g.visit (g.nodes.length + 1) []) [] = .ok known :=
    exists_foldlM_ok (fun a ha _ => exists_visit_ok (h a ha) (by simp)) []
  rw [cycle?, hknown]

end XmlSchema.DependencyGraph
