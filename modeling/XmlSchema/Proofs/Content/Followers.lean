import XmlSchema.Proofs.Content.Derivations
import XmlSchema.Proofs.Content.Viability

/-!
What may follow. The words that derivations read before a leaf takes the next name satisfy language equations of their
own, and the leaf may take any other name there that it accepts.
-/

namespace XmlSchema

namespace Particle

/-- How messages call a leaf. -/
def leafLabel : Particle → Text
  | element name _ _ => elementLabel name
  | wildcard w _ => w.label
  | group _ _ _ _ => []

/-- The words read before a leaf takes a name. -/
def wordsBefore (leaf : Particle) (ds : Language (Name × Particle)) : Language Name :=
  {u | ∃ d n e, d.map Prod.fst = u ∧ d ++ (n, leaf) :: e ∈ ds}

/-! ### Equations of words before a leaf -/

section

variable {leaf : Particle} {l m : Language (Name × Particle)} {u : List Name}

theorem wordsBefore_one : wordsBefore leaf 1 = 0 := by
  ext u
  constructor
  · rintro ⟨d, n, e, _, hd⟩
    exact absurd ((Language.mem_one _).1 hd) (by simp)
  · exact fun h => absurd h (Language.notMem_zero u)

theorem wordsBefore_add : wordsBefore leaf (l + m) = wordsBefore leaf l + wordsBefore leaf m := by
  ext u
  rw [Language.mem_add]
  constructor
  · rintro ⟨d, n, e, hu, hd⟩
    exact ((Language.mem_add _ _ _).1 hd).imp (fun hd => ⟨d, n, e, hu, hd⟩) fun hd => ⟨d, n, e, hu, hd⟩
  · rintro (⟨d, n, e, hu, hd⟩ | ⟨d, n, e, hu, hd⟩)
    · exact ⟨d, n, e, hu, (Language.mem_add _ _ _).2 (.inl hd)⟩
    · exact ⟨d, n, e, hu, (Language.mem_add _ _ _).2 (.inr hd)⟩

theorem wordsBefore_sum (ls : List (Language (Name × Particle))) :
    wordsBefore leaf ls.sum = (ls.map (wordsBefore leaf)).sum := by
  induction ls with
  | nil =>
      ext u
      constructor
      · rintro ⟨d, n, e, _, hd⟩
        exact absurd hd (Language.notMem_zero _)
      · exact fun h => absurd h (Language.notMem_zero u)
  | cons l ls ih => rw [List.sum_cons, wordsBefore_add, ih, List.map_cons, List.sum_cons]

/-- In a word of two parts the leaf takes a name in the first part, or in the second part behind the whole first. -/
theorem wordsBefore_mul (hm : ∃ w, w ∈ m) :
    wordsBefore leaf (l * m) = wordsBefore leaf l + Language.map Prod.fst l * wordsBefore leaf m := by
  ext u
  rw [Language.mem_add]
  constructor
  · rintro ⟨d, n, e, rfl, hd⟩
    obtain ⟨x, hx, y, hy, hxy⟩ := Language.mem_mul.1 hd
    have hbehind {z : List (Name × Particle)} (hz : x ++ z = d) (hy : z ++ (n, leaf) :: e ∈ m) :
        d.map Prod.fst ∈ Language.map Prod.fst l * wordsBefore leaf m := by
      rw [← hz, List.map_append]
      exact Language.append_mem_mul ⟨x, hx, rfl⟩ ⟨z, n, e, rfl, hy⟩
    rcases List.append_eq_append_iff.1 hxy with ⟨z, hz, hy'⟩ | ⟨z, rfl, hz⟩
    · exact .inr (hbehind hz.symm (hy' ▸ hy))
    · cases z with
      | nil => exact .inr (hbehind (z := []) (by simp) (by simpa using hz ▸ hy))
      | cons a z =>
          obtain ⟨rfl, _⟩ := List.cons.inj hz
          exact .inl ⟨d, n, z, rfl, hx⟩
  · rintro (⟨d, n, e, rfl, hd⟩ | h)
    · obtain ⟨w, hw⟩ := hm
      refine ⟨d, n, e ++ w, rfl, ?_⟩
      rw [← List.cons_append, ← List.append_assoc]
      exact Language.append_mem_mul hd hw
    · obtain ⟨_, ⟨x, hx, rfl⟩, _, ⟨d, n, e, rfl, hd⟩, rfl⟩ := Language.mem_mul.1 h
      refine ⟨x ++ d, n, e, List.map_append, ?_⟩
      rw [List.append_assoc]
      exact Language.append_mem_mul hx hd

theorem mem_wordsBefore_pow (hl : ∃ w, w ∈ l) {k : Nat} :
    u ∈ wordsBefore leaf (l ^ k) ↔ ∃ j < k, u ∈ Language.map Prod.fst l ^ j * wordsBefore leaf l := by
  induction k with
  | zero => simp [wordsBefore_one]
  | succ k ih =>
      rw [pow_succ, wordsBefore_mul hl, Language.mem_add, ih, map_pow, Sweep.exists_lt_succ_iff]
      exact or_comm

theorem mem_wordsBefore_repeated {o : Occurs} (ho : o.IsRange) (hl : ∃ w, w ∈ l) :
    u ∈ wordsBefore leaf {d | ∃ k, o.allows k ∧ d ∈ l ^ k} ↔
      ∃ k, o.allowsMore k = true ∧ u ∈ Language.map Prod.fst l ^ k * wordsBefore leaf l := by
  constructor
  · rintro ⟨d, n, e, hu, k, hk, hd⟩
    obtain ⟨j, hj, h⟩ := (mem_wordsBefore_pow hl).1 ⟨d, n, e, hu, hd⟩
    exact ⟨j, hk.allowsMore_of_lt hj, h⟩
  · rintro ⟨k, hk, h⟩
    -- behind the occurrence that the leaf is in come those that are still required
    have hallows : o.allows (max (k + 1) o.min) := by
      refine ⟨Nat.le_max_right _ _, fun m hm => ?_⟩
      have := Occurs.allowsMore_iff.1 hk m hm
      have := ho m hm
      omega
    have hlt : k < max (k + 1) o.min := Nat.lt_of_lt_of_le (Nat.lt_succ_self k) (Nat.le_max_left _ _)
    obtain ⟨d, n, e, hu, hd⟩ := (mem_wordsBefore_pow hl).2 ⟨k, hlt, h⟩
    exact ⟨d, n, e, hu, _, hallows, hd⟩

theorem mem_wordsBefore_leaf {P : Name → Prop} {other : Particle} (hP : ∃ n, P n) :
    u ∈ wordsBefore leaf {d | ∃ n, P n ∧ d = [(n, other)]} ↔ leaf = other ∧ u = [] := by
  constructor
  · rintro ⟨d, n, e, rfl, n', _, hd⟩
    rcases List.append_eq_singleton_iff.1 hd with ⟨rfl, hd⟩ | ⟨_, hd⟩
    · obtain ⟨heq, _⟩ := List.cons.inj hd
      exact ⟨(Prod.mk.inj heq).2, rfl⟩
    · exact absurd hd (List.cons_ne_nil _ _)
  · rintro ⟨rfl, rfl⟩
    obtain ⟨n, hn⟩ := hP
    exact ⟨[], n, [], rfl, n, hn, rfl⟩

end

/-! ### Names that a leaf takes are exchangeable -/

/-- Each leaf may take any name that it accepts instead. -/
def IsExchangeable (substitutes : Name → List Name) (ds : Language (Name × Particle)) : Prop :=
  ∀ d ∈ ds, ∀ d', d'.map Prod.snd = d.map Prod.snd → (∀ a ∈ d', a.2.takes substitutes a.1) → d' ∈ ds

variable {substitutes : Name → List Name} {l m : Language (Name × Particle)}

theorem isExchangeable_one : IsExchangeable substitutes 1 := by
  intro d hd d' hleaves _
  obtain rfl := (Language.mem_one d).1 hd
  rw [List.map_eq_nil_iff.1 hleaves]
  exact Language.nil_mem_one

theorem IsExchangeable.mul (hl : IsExchangeable substitutes l) (hm : IsExchangeable substitutes m) :
    IsExchangeable substitutes (l * m) := by
  intro d hd d' hleaves htakes
  obtain ⟨x, hx, y, hy, rfl⟩ := Language.mem_mul.1 hd
  rw [List.map_append] at hleaves
  obtain ⟨x', y', rfl, hx', hy'⟩ := List.map_eq_append_iff.1 hleaves
  rw [List.forall_mem_append] at htakes
  exact Language.append_mem_mul (hl x hx x' hx' htakes.1) (hm y hy y' hy' htakes.2)

theorem IsExchangeable.pow (hl : IsExchangeable substitutes l) (k : Nat) : IsExchangeable substitutes (l ^ k) := by
  induction k with
  | zero =>
      rw [pow_zero]
      exact isExchangeable_one
  | succ k ih =>
      rw [pow_succ]
      exact ih.mul hl

theorem isExchangeable_prod {ls : List (Language (Name × Particle))} (h : ∀ l ∈ ls, IsExchangeable substitutes l) :
    IsExchangeable substitutes ls.prod := by
  induction ls with
  | nil => exact isExchangeable_one
  | cons l ls ih =>
      rw [List.forall_mem_cons] at h
      rw [List.prod_cons]
      exact h.1.mul (ih h.2)

theorem isExchangeable_sum {ls : List (Language (Name × Particle))} (h : ∀ l ∈ ls, IsExchangeable substitutes l) :
    IsExchangeable substitutes ls.sum := by
  induction ls with
  | nil => exact fun d hd => absurd hd (Language.notMem_zero d)
  | cons l ls ih =>
      rw [List.forall_mem_cons] at h
      intro d hd d' hleaves htakes
      rw [List.sum_cons, Language.mem_add] at hd ⊢
      exact hd.imp (fun hd => h.1 d hd d' hleaves htakes) fun hd => ih h.2 d hd d' hleaves htakes

theorem isExchangeable_leaf (leaf : Particle) :
    IsExchangeable substitutes {d | ∃ n, leaf.takes substitutes n ∧ d = [(n, leaf)]} := by
  rintro d ⟨n, _, rfl⟩ d' hleaves htakes
  obtain ⟨⟨n', leaf'⟩, rfl, rfl⟩ := List.map_eq_singleton_iff.1 hleaves
  exact ⟨n', htakes _ List.mem_cons_self, rfl⟩

theorem isExchangeable_derivations_of_term {p : Particle}
    (h : IsExchangeable substitutes (p.termDerivations substitutes)) :
    IsExchangeable substitutes (p.derivations substitutes) := by
  rintro d ⟨k, hk, hd⟩ d' hleaves htakes
  exact ⟨k, hk, h.pow k d hd d' hleaves htakes⟩

theorem isExchangeable_termDerivations (p : Particle) : IsExchangeable substitutes (p.termDerivations substitutes) := by
  induction p using induct with
  | element name key occurs => exact isExchangeable_leaf (element name key occurs)
  | wildcard w occurs => exact isExchangeable_leaf (wildcard w occurs)
  | group compositor members occurs source ih =>
      have hmembers : ∀ l ∈ derivationsOfAll substitutes members, IsExchangeable substitutes l := by
        rw [derivationsOfAll_eq_map]
        exact List.forall_mem_map.2 fun m hm => isExchangeable_derivations_of_term (ih m hm)
      cases compositor with
      | sequence => exact isExchangeable_prod hmembers
      | choice => exact isExchangeable_sum hmembers
      | all =>
          rintro d ⟨ls, hls, hd⟩ d' hleaves htakes
          have hprod := isExchangeable_prod fun l hl => hmembers l (hls.mem_iff.1 hl)
          exact ⟨ls, hls, hprod d hd d' hleaves htakes⟩

/-! ### Derivations -/

theorem exists_mem_termDerivations {p : Particle} (hp : p.HasRanges) (ho : p.IsOrdered) (hs : p.IsSatisfiable) :
    ∃ d, d ∈ p.termDerivations substitutes := by
  have hterm : ∃ w, w ∈ p.term substitutes := exists_mem_term hp ho hs
  rw [← map_termDerivations] at hterm
  obtain ⟨w, hw⟩ := hterm
  obtain ⟨d, hd, _⟩ := hw
  exact ⟨d, hd⟩

theorem exists_mem_derivations {p : Particle} (hp : p.HasRanges) (ho : p.IsOrdered) (hs : p.IsSatisfiable) :
    ∃ d, d ∈ p.derivations substitutes := by
  have hword : ∃ w, w ∈ p.language substitutes := exists_mem_language hp.occurs (exists_mem_term hp ho hs)
  rw [← map_derivations] at hword
  obtain ⟨w, hw⟩ := hword
  obtain ⟨d, hd, _⟩ := hw
  exact ⟨d, hd⟩

/-- A leaf may take a name behind an allowed number of occurrences and what is read in the next one. -/
theorem spells_before_iff {p leaf : Particle} {names : List Name} {pos q : Nat} (hp : p.HasRanges) (ho : p.IsOrdered)
    (hs : p.IsSatisfiable) :
    Spells names (wordsBefore leaf (p.derivations substitutes)) pos q ↔
      ∃ k, p.occurs.allowsMore k = true ∧ ∃ r, Spells names (p.term substitutes ^ k) pos r ∧
        Spells names (wordsBefore leaf (p.termDerivations substitutes)) r q := by
  have hterm : ∃ d, d ∈ p.termDerivations substitutes := exists_mem_termDerivations hp ho hs
  have hbefore (u : List Name) : u ∈ wordsBefore leaf (p.derivations substitutes) ↔ _ :=
    mem_wordsBefore_repeated hp.occurs hterm
  rw [map_termDerivations] at hbefore
  constructor
  · rintro ⟨u, hu, hspells⟩
    obtain ⟨k, hk, hu⟩ := (hbefore u).1 hu
    exact ⟨k, hk, Spells.mul_iff.1 ⟨u, hu, hspells⟩⟩
  · rintro ⟨k, hk, h⟩
    obtain ⟨u, hu, hspells⟩ := Spells.mul_iff.2 h
    exact ⟨u, (hbefore u).2 ⟨k, hk, hu⟩, hspells⟩

end Particle

end XmlSchema
