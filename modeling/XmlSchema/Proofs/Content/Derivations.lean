import XmlSchema.Proofs.Content.Language
import XmlSchema.Proofs.Content.Takers

/-!
Derivations of lists of names: which leaf of a content model takes which name. What derivations read are the words of
the model's language, so whatever fits a model has a derivation in it.
-/

namespace XmlSchema

namespace Particle

variable (substitutes : Name → List Name)

mutual

/-- The derivations in one occurrence of a particle: words of names, each with the leaf that takes it. -/
def termDerivations : Particle → Language (Name × Particle)
  | element name key occurs => {d | ∃ n, n ∈ Matcher.accepted substitutes name ∧ d = [(n, element name key occurs)]}
  | wildcard w occurs => {d | ∃ n : Name, w.allows n.uri = true ∧ d = [(n, wildcard w occurs)]}
  | group .sequence members _ _ => (derivationsOfAll members).prod
  | group .choice members _ _ => (derivationsOfAll members).sum
  | group .all members _ _ => {d | ∃ ls : List (Language (Name × Particle)), ls.Perm (derivationsOfAll members) ∧
      d ∈ ls.prod}

def derivationsOfAll : List Particle → List (Language (Name × Particle))
  | [] => []
  | p :: ps => {d | ∃ k, p.occurs.allows k ∧ d ∈ termDerivations p ^ k} :: derivationsOfAll ps

end

/-- The derivations in a particle: those in an allowed number of its occurrences. -/
def derivations (p : Particle) : Language (Name × Particle) :=
  {d | ∃ k, p.occurs.allows k ∧ d ∈ p.termDerivations substitutes ^ k}

theorem derivationsOfAll_eq_map (ps : List Particle) :
    derivationsOfAll substitutes ps = ps.map (derivations substitutes) := by
  induction ps with
  | nil => rfl
  | cons p ps ih => rw [derivationsOfAll, ih, List.map_cons, derivations]

/-! ### What derivations read -/

section

variable {α β : Type} {f : α → β}

theorem exists_perm_map {l : List α} {m : List β} (h : m.Perm (l.map f)) : ∃ l' : List α, l'.Perm l ∧ l'.map f = m := by
  induction m generalizing l with
  | nil =>
      obtain rfl := List.map_eq_nil_iff.1 (List.nil_perm.1 h)
      exact ⟨[], .nil, rfl⟩
  | cons b m ih =>
      obtain ⟨a, ha, rfl⟩ := List.mem_map.1 (h.mem_iff.1 List.mem_cons_self)
      obtain ⟨before, behind, rfl⟩ := List.append_of_mem ha
      have hrest := h.trans (List.perm_middle.map f)
      obtain ⟨l', hl', rfl⟩ := ih (List.Perm.cons_inv hrest)
      exact ⟨a :: l', (hl'.cons a).trans List.perm_middle.symm, rfl⟩

theorem map_prods {ls : List (Language α)} :
    Language.map f {d | ∃ ms : List (Language α), ms.Perm ls ∧ d ∈ ms.prod} =
      {w | ∃ ms : List (Language β), ms.Perm (ls.map (Language.map f)) ∧ w ∈ ms.prod} := by
  ext w
  constructor
  · rintro ⟨d, ⟨ms, hms, hd⟩, rfl⟩
    exact ⟨ms.map (Language.map f), hms.map _, by rw [← map_list_prod]; exact ⟨d, hd, rfl⟩⟩
  · rintro ⟨ms, hms, hw⟩
    obtain ⟨ms', hms', rfl⟩ := exists_perm_map hms
    rw [← map_list_prod] at hw
    obtain ⟨d, hd, rfl⟩ := hw
    exact ⟨d, ⟨ms', hms', hd⟩, rfl⟩

end

theorem map_repeated (o : Occurs) (l : Language (Name × Particle)) :
    Language.map Prod.fst {d | ∃ k, o.allows k ∧ d ∈ l ^ k} = o.repeated (Language.map Prod.fst l) := by
  ext w
  constructor
  · rintro ⟨d, ⟨k, hk, hd⟩, rfl⟩
    exact ⟨k, hk, by rw [← map_pow]; exact ⟨d, hd, rfl⟩⟩
  · rintro ⟨k, hk, hw⟩
    rw [← map_pow] at hw
    obtain ⟨d, hd, rfl⟩ := hw
    exact ⟨d, ⟨k, hk, hd⟩, rfl⟩

theorem map_leaf (P : Name → Prop) (leaf : Particle) :
    Language.map Prod.fst {d | ∃ n, P n ∧ d = [(n, leaf)]} = {w | ∃ n, P n ∧ w = [n]} := by
  ext w
  constructor
  · rintro ⟨_, ⟨n, hn, rfl⟩, rfl⟩
    exact ⟨n, hn, rfl⟩
  · rintro ⟨n, hn, rfl⟩
    exact ⟨_, ⟨n, hn, rfl⟩, rfl⟩

theorem map_termDerivations (p : Particle) :
    Language.map Prod.fst (p.termDerivations substitutes) = p.term substitutes := by
  induction p using induct with
  | element name key occurs => exact map_leaf (· ∈ Matcher.accepted substitutes name) _
  | wildcard w occurs => exact map_leaf (fun n => w.allows n.uri = true) _
  | group compositor members occurs source ih =>
      have hmembers : (members.map (derivations substitutes)).map (Language.map Prod.fst) =
          members.map (language substitutes) := by
        rw [List.map_map]
        refine List.map_congr_left fun m hm => ?_
        rw [Function.comp_apply, derivations, map_repeated, ih m hm, language]
      cases compositor with
      | sequence => rw [termDerivations, term, derivationsOfAll_eq_map, languages_eq_map, map_list_prod, hmembers]
      | choice => rw [termDerivations, term, derivationsOfAll_eq_map, languages_eq_map, map_list_sum, hmembers]
      | all => rw [termDerivations, term, derivationsOfAll_eq_map, languages_eq_map, map_prods, hmembers]

/-- What the derivations in a particle read is its language. -/
theorem map_derivations (p : Particle) :
    Language.map Prod.fst (p.derivations substitutes) = p.language substitutes := by
  rw [derivations, map_repeated, map_termDerivations, language]

/-! ### Leaves in derivations -/

variable {substitutes} {p : Particle} {d : List (Name × Particle)} {a : Name × Particle}

theorem exists_of_mem_pow {α : Type} {l : Language α} {k : Nat} {w : List α} (hw : w ∈ l ^ k) {a : α} (ha : a ∈ w) :
    ∃ v ∈ l, a ∈ v := by
  obtain ⟨vs, rfl, _, hvs⟩ := Language.mem_pow.1 hw
  obtain ⟨v, hv, ha⟩ := List.mem_flatten.1 ha
  exact ⟨v, hvs v hv, ha⟩

theorem exists_of_mem_prod {α : Type} {ls : List (Language α)} {w : List α} (hw : w ∈ ls.prod) {a : α} (ha : a ∈ w) :
    ∃ l ∈ ls, ∃ v ∈ l, a ∈ v := by
  induction ls generalizing w with
  | nil =>
      rw [List.prod_nil, Language.mem_one] at hw
      exact absurd (hw ▸ ha) List.not_mem_nil
  | cons l ls ih =>
      rw [List.prod_cons, Language.mem_mul] at hw
      obtain ⟨u, hu, v, hv, rfl⟩ := hw
      rcases List.mem_append.1 ha with ha | ha
      · exact ⟨l, List.mem_cons_self, u, hu, ha⟩
      · obtain ⟨m, hm, hv⟩ := ih hv ha
        exact ⟨m, List.mem_cons_of_mem l hm, hv⟩

theorem exists_of_mem_sum {α : Type} {ls : List (Language α)} {w : List α} (hw : w ∈ ls.sum) : ∃ l ∈ ls, w ∈ l := by
  induction ls with
  | nil => exact absurd hw (Language.notMem_zero w)
  | cons l ls ih =>
      rw [List.sum_cons, Language.mem_add] at hw
      rcases hw with hw | hw
      · exact ⟨l, List.mem_cons_self, hw⟩
      · obtain ⟨m, hm, hw⟩ := ih hw
        exact ⟨m, List.mem_cons_of_mem l hm, hw⟩

theorem takes_of_mem_termDerivations (hd : d ∈ p.termDerivations substitutes) (ha : a ∈ d) :
    a.2 ∈ p.parts ∧ a.2.takes substitutes a.1 := by
  induction p using induct generalizing d a with
  | element name key occurs =>
      obtain ⟨n, hn, rfl⟩ := hd
      obtain rfl := List.mem_singleton.1 ha
      exact ⟨mem_parts_self _, hn⟩
  | wildcard w occurs =>
      obtain ⟨n, hn, rfl⟩ := hd
      obtain rfl := List.mem_singleton.1 ha
      exact ⟨mem_parts_self _, hn⟩
  | group compositor members occurs source ih =>
      have hmember : ∀ l ∈ members.map (derivations substitutes), ∀ d ∈ l, ∀ a ∈ d,
          a.2 ∈ (group compositor members occurs source).parts ∧ a.2.takes substitutes a.1 := by
        refine List.forall_mem_map.2 fun m hm d hd a ha => ?_
        obtain ⟨k, _, hd⟩ := hd
        obtain ⟨d', hd', ha⟩ := exists_of_mem_pow hd ha
        obtain ⟨hpart, htakes⟩ := ih m hm hd' ha
        exact ⟨mem_parts_group.2 (.inr ⟨m, hm, hpart⟩), htakes⟩
      rw [← derivationsOfAll_eq_map] at hmember
      cases compositor with
      | sequence =>
          rw [termDerivations] at hd
          obtain ⟨l, hl, d', hd', ha⟩ := exists_of_mem_prod hd ha
          exact hmember l hl d' hd' a ha
      | choice =>
          rw [termDerivations] at hd
          obtain ⟨l, hl, hd⟩ := exists_of_mem_sum hd
          exact hmember l hl d hd a ha
      | all =>
          rw [termDerivations] at hd
          obtain ⟨ls, hls, hd⟩ := hd
          obtain ⟨l, hl, d', hd', ha⟩ := exists_of_mem_prod hd ha
          exact hmember l (hls.mem_iff.1 hl) d' hd' a ha

/-- In a derivation each name is taken by a leaf of the particle. -/
theorem takes_of_mem_derivations (hd : d ∈ p.derivations substitutes) (ha : a ∈ d) :
    a.2 ∈ p.parts ∧ a.2.takes substitutes a.1 := by
  obtain ⟨k, _, hd⟩ := hd
  obtain ⟨d', hd', ha⟩ := exists_of_mem_pow hd ha
  exact takes_of_mem_termDerivations hd' ha

end Particle

/-- A list of names that fits a model has a derivation in it. -/
theorem Content.exists_derivation_of_fits {substitutes : Name → List Name} {model : Option Particle}
    (hr : (model.getD .emptySequence).HasRanges) (hs : (model.getD .emptySequence).HasSingles) {names : List Name}
    (h : (recover substitutes model names).mismatches = []) :
    ∃ d ∈ (model.getD .emptySequence).derivations substitutes, d.map Prod.fst = names := by
  have hspells : Spells names ((model.getD .emptySequence).language substitutes) 0 names.length :=
    Matcher.spells_of_mem_ends_of_step hr (fun _ hpos _ => Matcher.spells_of_mem_step hr hs hpos)
      (Nat.zero_le _) (recover_eq_nil_iff.1 h)
  have hword := ((Spells.iff_extract (Nat.zero_le _)).1 hspells).2.2
  rw [List.extract_eq_take_drop, List.drop_zero, Nat.sub_zero, List.take_length, ← Particle.map_derivations] at hword
  exact hword

end XmlSchema
