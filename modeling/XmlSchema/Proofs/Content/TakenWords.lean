import XmlSchema.Proofs.Content.Language

/-!
The words that a match takes. They are put together as in the language of a particle, but in a group whose members may
stand in any order each name goes to the first member that accepts it, and the others are not tried. What fits a
content model is what a match of the model takes.
-/

namespace XmlSchema

namespace Occurs

variable {o : Occurs} {l : Language Name}

@[simp] theorem repeated_once : Occurs.repeated {} l = l := by
  ext w
  constructor
  · rintro ⟨k, ⟨hmin, hmax⟩, hw⟩
    obtain rfl : k = 1 := Nat.le_antisymm (hmax 1 rfl) hmin
    rwa [pow_one] at hw
  · exact fun hw => ⟨1, ⟨Nat.le_refl 1, fun _ hm => Nat.le_of_eq (Option.some.inj hm)⟩, by rwa [pow_one]⟩

theorem nil_mem_repeated (ho : o.IsRange) : [] ∈ o.repeated l ↔ o.min = 0 ∨ [] ∈ l := by
  constructor
  · rintro ⟨k, ⟨hmin, _⟩, hw⟩
    cases k with
    | zero => exact .inl (Nat.le_zero.1 hmin)
    | succ k =>
        rw [pow_succ', Language.mem_mul] at hw
        obtain ⟨u, hu, v, _, huv⟩ := hw
        exact .inr ((List.append_eq_nil_iff.1 huv).1 ▸ hu)
  · rintro (h | h)
    · exact ⟨0, h ▸ ho.allows_min, by rw [pow_zero]; exact Language.nil_mem_one⟩
    · have hpow (k : Nat) : [] ∈ l ^ k := by
        induction k with
        | zero => exact Language.nil_mem_one
        | succ k ih => exact pow_succ l k ▸ Language.append_mem_mul ih h
      exact ⟨o.min, ho.allows_min, hpow o.min⟩

end Occurs

namespace AllMember

/-- Each name is taken by the first member left that accepts it, and in the end none is left that has to occur. -/
def TakesInTurn : List AllMember → List Name → Prop
  | members, [] => ∀ m ∈ members, m.minimum = 0
  | members, n :: ns =>
      (∃ m ∈ members, n ∈ m.accepted) ∧ TakesInTurn (members.eraseP (·.accepted.contains n)) ns

instance decidableTakesInTurn : (members : List AllMember) → (names : List Name) → Decidable (TakesInTurn members names)
  | members, [] => inferInstanceAs (Decidable (∀ m ∈ members, m.minimum = 0))
  | members, n :: ns =>
      have := decidableTakesInTurn (members.eraseP (·.accepted.contains n)) ns
      inferInstanceAs (Decidable ((∃ m ∈ members, n ∈ m.accepted) ∧ _))

def inTurn (members : List AllMember) : Language Name := {w | TakesInTurn members w}

variable {members : List AllMember} {names : List Name} {pos q : Nat}

theorem any_accepted_iff {n : Name} :
    members.any (·.accepted.contains n) = true ↔ ∃ m ∈ members, n ∈ m.accepted := by
  simp

theorem spells_inTurn_iff : Spells names (inTurn members) pos q ↔
    (q = pos ∧ ∀ m ∈ members, m.minimum = 0) ∨ ∃ n, names[pos]? = some n ∧ (∃ m ∈ members, n ∈ m.accepted) ∧
      Spells names (inTurn (members.eraseP (·.accepted.contains n))) (pos + 1) q := by
  constructor
  · rintro ⟨w, hw, hp, rfl⟩
    cases w with
    | nil => exact .inl ⟨rfl, hw⟩
    | cons n ns =>
        obtain ⟨hn, hns⟩ := Spells.append_prefix_drop (u := [n]).1 hp
        exact .inr ⟨n, Spells.singleton_prefix_drop.1 hn, hw.1, ns, hw.2, hns, by rw [List.length_cons]; omega⟩
  · rintro (⟨rfl, h⟩ | ⟨n, hn, hm, w, hw, hp, rfl⟩)
    · exact ⟨[], h, List.nil_prefix, rfl⟩
    · refine ⟨n :: w, ⟨hm, hw⟩, ?_, by rw [List.length_cons]; omega⟩
      exact Spells.append_prefix_drop (u := [n]).2 ⟨Spells.singleton_prefix_drop.2 hn, hp⟩

theorem mem_matchFrom_iff {ends : Positions} : q ∈ (matchFrom names.toArray members pos ends).ends ↔
    q ∈ ends ∨ Spells names (inTurn members) pos q := by
  induction members, pos using matchFrom_induct names.toArray generalizing ends with
  | stop members pos h =>
      have hnone (n : Name) (hn : names[pos]? = some n) : ¬ ∃ m ∈ members, n ∈ m.accepted := by
        rw [← any_accepted_iff, Bool.not_eq_true]
        exact h n (by rwa [List.getElem?_toArray])
      rw [matchFrom_none h, mem_endsAt, spells_inTurn_iff]
      refine or_congr_right ⟨.inl, fun hq => hq.resolve_right ?_⟩
      rintro ⟨n, hn, hm, _⟩
      exact hnone n hn hm
  | take members pos n hn h ih =>
      have htake : Spells names (inTurn members) pos q ↔ _ := spells_inTurn_iff
      rw [matchFrom_some hn h, ih, mem_endsAt, htake, or_assoc]
      rw [List.getElem?_toArray] at hn
      refine or_congr_right (or_congr_right ⟨fun hq => ⟨n, hn, any_accepted_iff.1 h, hq⟩, ?_⟩)
      rintro ⟨n', hn', _, hq⟩
      obtain rfl := Option.some.inj (hn.symm.trans hn')
      exact hq

end AllMember

namespace Particle

variable (substitutes : Name → List Name)

mutual

/-- The words that a match of one occurrence of a particle takes. -/
def takenTerm : Particle → Language Name
  | element name _ _ => {w | ∃ n ∈ Matcher.accepted substitutes name, w = [n]}
  | wildcard w _ => {v | ∃ n : Name, w.allows n.uri = true ∧ v = [n]}
  | group .sequence members _ _ => (takenByEach members).prod
  | group .choice members _ _ => (takenByEach members).sum
  | group .all members _ _ => AllMember.inTurn (Matcher.allMembers substitutes members)

def takenByEach : List Particle → List (Language Name)
  | [] => []
  | p :: ps => p.occurs.repeated (takenTerm p) :: takenByEach ps

end

/-- The words that a match of a particle takes. -/
def taken (p : Particle) : Language Name := p.occurs.repeated (p.takenTerm substitutes)

theorem takenByEach_eq_map (ps : List Particle) : takenByEach substitutes ps = ps.map (taken substitutes) := by
  induction ps with
  | nil => rfl
  | cons p ps ih => rw [takenByEach, ih, List.map_cons, taken]

@[simp] theorem taken_emptySequence : emptySequence.taken substitutes = 1 := by
  rw [taken, emptySequence, takenTerm, takenByEach, List.prod_nil]
  exact Occurs.repeated_once

theorem taken_pair (p q : Particle) {source : Option Name} :
    (group .sequence [p, q] {} source).taken substitutes = p.taken substitutes * q.taken substitutes := by
  rw [taken, takenTerm, takenByEach_eq_map, List.map_cons, List.map_cons, List.map_nil, List.prod_cons, List.prod_cons,
    List.prod_nil, mul_one]
  exact Occurs.repeated_once

end Particle

namespace Matcher

variable {substitutes : Name → List Name} {names : List Name}

theorem mem_step_iff_spells_taken {p : Particle} (hp : p.HasRanges) {pos : Nat} (hpos : pos ≤ names.length) {q : Nat} :
    q ∈ step substitutes names.toArray p pos ↔ Spells names (p.takenTerm substitutes) pos q := by
  induction p using Particle.induct generalizing pos q with
  | element name key occurs =>
      rw [step, mem_nameStep, List.getElem?_toArray, Particle.takenTerm, Spells.singleton_iff]
  | wildcard w occurs =>
      rw [step, mem_wildcardStep, List.getElem?_toArray, Particle.takenTerm, Spells.singleton_iff]
  | group compositor members occurs source ih =>
      -- the hypothesis is about one occurrence of a member, and the step needs all of its occurrences
      have hends : ∀ m ∈ members, ∀ pos ≤ names.length, ∀ q, q ∈ (ofParticle substitutes names.toArray m).ends pos ↔
          Spells names (m.taken substitutes) pos q := fun m hm pos hpos q =>
        ⟨spells_of_mem_ends_of_step (hp.member hm) (fun _ h _ => (ih m hm (hp.member hm) h).1) hpos,
          mem_ends_of_spells (hp.member hm) (fun _ h _ => (ih m hm (hp.member hm) h).2) hpos⟩
      cases compositor with
      | sequence =>
          rw [step, mem_sequenceStep, Particle.takenTerm, Particle.takenByEach_eq_map]
          exact ⟨spells_of_leads (fun m hm pos hpos q => (hends m hm pos hpos q).1) hpos,
            leads_of_spells (fun m hm pos hpos q => (hends m hm pos hpos q).2) hpos⟩
      | choice =>
          rw [step, mem_choiceStep, Particle.takenTerm, Particle.takenByEach_eq_map, Spells.sum_iff]
          simp only [List.mem_map, exists_exists_and_eq_and]
          exact exists_congr fun m => and_congr_right fun hm => hends m hm pos hpos q
      | all =>
          change q ∈ (AllMember.matchFrom names.toArray (allMembers substitutes members) pos .empty).ends ↔ _
          rw [AllMember.mem_matchFrom_iff, Particle.takenTerm]
          exact or_iff_right (Positions.not_mem_empty q)

/-- A match ends at every position behind a word that it takes, and at no other. -/
theorem mem_ends_iff_spells_taken {p : Particle} (hp : p.HasRanges) {pos : Nat} (hpos : pos ≤ names.length) {q : Nat} :
    q ∈ (ofParticle substitutes names.toArray p).ends pos ↔ Spells names (p.taken substitutes) pos q :=
  ⟨spells_of_mem_ends_of_step hp (fun _ h _ => (mem_step_iff_spells_taken hp h).1) hpos,
    mem_ends_of_spells hp (fun _ h _ => (mem_step_iff_spells_taken hp h).2) hpos⟩

end Matcher

namespace Content

variable {substitutes : Name → List Name}

/-- The lists of names that have no mismatches. -/
def fitting (substitutes : Name → List Name) (model : Option Particle) : Language Name :=
  {names | (recover substitutes model names).mismatches = []}

theorem fitting_eq_taken {model : Option Particle} (h : ∀ p, model = some p → p.HasRanges) :
    fitting substitutes model = (model.getD .emptySequence).taken substitutes := by
  have hranges : (model.getD .emptySequence).HasRanges := by
    cases model with
    | none => exact Particle.hasRanges_group.2 ⟨by decide, by simp⟩
    | some p => exact h p rfl
  ext names
  change _ = [] ↔ _
  rw [recover_eq_nil_iff, Matcher.mem_ends_iff_spells_taken hranges (Nat.zero_le _),
    Spells.iff_extract (Nat.zero_le _)]
  simp

theorem fitting_some {p : Particle} (h : p.HasRanges) : fitting substitutes (some p) = p.taken substitutes :=
  fitting_eq_taken (by rintro _ ⟨⟩; exact h)

@[simp] theorem fitting_none : fitting substitutes none = 1 :=
  (fitting_eq_taken (by simp)).trans (Particle.taken_emptySequence substitutes)

end Content

end XmlSchema
