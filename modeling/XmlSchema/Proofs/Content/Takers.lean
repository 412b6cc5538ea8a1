import XmlSchema.Proofs.Content.Attempts

/-!
What takes the children that fit a content model: each of them is taken by an element particle or a wildcard in it.
-/

namespace XmlSchema

/-- A particle is a leaf that accepts an element of that name. -/
def Particle.takes (substitutes : Name → List Name) (name : Name) : Particle → Prop
  | element own _ _ => name ∈ Matcher.accepted substitutes own
  | wildcard w _ => w.allows name.uri = true
  | group _ _ _ _ => False

namespace Matcher

/-- Every name between two positions is taken by some leaf of a particle. -/
def Covers (substitutes : Name → List Name) (names : Array Name) (p : Particle) (pos q : Nat) : Prop :=
  ∀ i, pos ≤ i → i < q → ∃ n, names[i]? = some n ∧ ∃ leaf ∈ p.parts, leaf.takes substitutes n

variable {substitutes : Name → List Name} {names : Array Name} {p : Particle} {pos q r : Nat}

theorem Covers.trans (h : Covers substitutes names p pos r) (h' : Covers substitutes names p r q) :
    Covers substitutes names p pos q := by
  intro i hi hq
  rcases Nat.lt_or_ge i r with hlt | hge
  · exact h i hi hlt
  · exact h' i hge hq

theorem Covers.group {compositor : Compositor} {members : List Particle} {occurs : Occurs} {source : Option Name}
    {m : Particle} (hm : m ∈ members) (h : Covers substitutes names m pos q) :
    Covers substitutes names (.group compositor members occurs source) pos q := by
  intro i hi hq
  obtain ⟨n, hn, leaf, hleaf, ht⟩ := h i hi hq
  exact ⟨n, hn, leaf, Particle.mem_parts_group.2 (.inr ⟨m, hm, hleaf⟩), ht⟩

theorem Covers.one {n : Name} (hn : names[pos]? = some n) (h : p.takes substitutes n) :
    Covers substitutes names p pos (pos + 1) := by
  intro i hi hq
  obtain rfl : i = pos := by omega
  exact ⟨n, hn, p, p.mem_parts_self, h⟩

theorem covers_of_mem_ends_of_step
    (h : ∀ pos ≤ names.size, ∀ q ∈ step substitutes names p pos, Covers substitutes names p pos q)
    (hpos : pos ≤ names.size) (hq : q ∈ (ofParticle substitutes names p).ends pos) :
    Covers substitutes names p pos q := by
  rw [ends_ofParticle p hpos] at hq
  obtain ⟨k, hk⟩ := exists_after_of_mem_reached hq
  clear hq
  induction k generalizing q with
  | zero =>
      obtain rfl := Sweep.mem_after_zero.1 hk
      exact fun i hi hq => absurd hq (Nat.not_lt.2 hi)
  | succ k ih =>
      obtain ⟨r, hr, hq⟩ := Sweep.mem_after_succ.1 hk
      exact (ih hr).trans (h r ((advances_step p).after hpos hr).2 q hq)

theorem covers_of_leads {ms members : List Particle} {compositor : Compositor} {occurs : Occurs}
    {source : Option Name} (hms : ∀ m ∈ ms, m ∈ members)
    (h : ∀ m ∈ members, ∀ pos ≤ names.size, ∀ q ∈ (ofParticle substitutes names m).ends pos,
      Covers substitutes names m pos q)
    (hpos : pos ≤ names.size) (hq : Leads (ms.map (ofParticle substitutes names)) pos q) :
    Covers substitutes names (.group compositor members occurs source) pos q := by
  induction ms generalizing pos with
  | nil =>
      obtain rfl : pos = q := hq
      exact fun i hi hq => absurd hq (Nat.not_lt.2 hi)
  | cons m ms ih =>
      obtain ⟨hm, hms⟩ := List.forall_mem_cons.1 hms
      obtain ⟨r, hr, hq⟩ := hq
      exact (Covers.group hm (h m hm pos hpos r hr)).trans (ih hms (advances_ends m pos hpos r hr).2 hq)

theorem mem_allMembers {members : List Particle} {m : AllMember} (hm : m ∈ allMembers substitutes members) :
    ∃ own key occurs, Particle.element own key occurs ∈ members ∧
      m = ⟨accepted substitutes own, occurs.min, Particle.elementLabel own⟩ := by
  obtain ⟨p, hp, hm⟩ := List.mem_filterMap.1 hm
  cases p with
  | element own key occurs => exact ⟨own, key, occurs, hp, (Option.some.inj hm).symm⟩
  | wildcard w occurs => simp at hm
  | group compositor members occurs source => simp at hm

theorem covers_of_mem_step (p : Particle) :
    ∀ pos ≤ names.size, ∀ q ∈ step substitutes names p pos, Covers substitutes names p pos q := by
  induction p using Particle.induct with
  | element own key occurs =>
      intro pos _ q hq
      obtain ⟨n, hn, ht, rfl⟩ := mem_nameStep.1 hq
      exact .one hn ht
  | wildcard w occurs =>
      intro pos _ q hq
      obtain ⟨n, hn, ht, rfl⟩ := mem_wildcardStep.1 hq
      exact .one hn ht
  | group compositor members occurs source ih =>
      have hms : ∀ m ∈ members, ∀ pos ≤ names.size, ∀ q ∈ (ofParticle substitutes names m).ends pos,
          Covers substitutes names m pos q := fun m hm pos hpos q hq => covers_of_mem_ends_of_step (ih m hm) hpos hq
      intro pos hpos q hq
      cases compositor with
      | sequence => exact covers_of_leads (fun m hm => hm) hms hpos (mem_sequenceStep.1 hq)
      | choice =>
          obtain ⟨m', hm', hq⟩ := mem_choiceStep.1 hq
          obtain ⟨m, hm, rfl⟩ := List.mem_map.1 hm'
          exact .group hm (hms m hm pos hpos q hq)
      | all =>
          intro i hi hlt
          obtain ⟨_, _, hends⟩ := AllMember.matchFrom_bounds (allMembers substitutes members) pos .empty hpos
          have hstopped := (hends q hq).resolve_left (Positions.not_mem_empty q)
          obtain ⟨n, hn, m, hm, ht⟩ := AllMember.matchFrom_accepted _ pos .empty hi (Nat.lt_of_lt_of_le hlt hstopped.2)
          obtain ⟨own, key, occurs', hmem, rfl⟩ := mem_allMembers hm
          exact ⟨n, hn, _, Particle.mem_parts_group.2 (.inr ⟨_, hmem, Particle.mem_parts_self _⟩), ht⟩

end Matcher

/-- Every child of a list that fits the model is taken by a leaf of the model. -/
theorem Content.exists_takes_of_fits {substitutes : Name → List Name} {model : Option Particle} {names : List Name}
    (h : (recover substitutes model names).mismatches = []) {name : Name} (hn : name ∈ names) :
    ∃ leaf ∈ (model.getD .emptySequence).parts, leaf.takes substitutes name := by
  obtain ⟨i, hi, rfl⟩ := List.mem_iff_getElem.1 hn
  obtain ⟨n, hn, h⟩ := Matcher.covers_of_mem_ends_of_step (Matcher.covers_of_mem_step (model.getD .emptySequence))
    (Nat.zero_le _) (recover_eq_nil_iff.1 h) i (Nat.zero_le _) hi
  rw [List.getElem?_toArray, List.getElem?_eq_getElem hi] at hn
  rwa [Option.some.inj hn]

end XmlSchema
