import XmlSchema.Proofs.Content.TakenWords
import XmlSchema.Proofs.Schema.Reading

/-!
Models without elements and wildcards, which a complex type drops from its content. What stays permits what the model
permits, unless the model does not even permit to leave everything out: nothing fits a choice without alternatives.
-/

namespace XmlSchema

namespace Particle

mutual

/-- Whether a match of the particle may take nothing. -/
def isEmptiable : Particle → Bool
  | element _ _ occurs => occurs.min = 0
  | wildcard _ occurs => occurs.min = 0
  | group .sequence members occurs _ => occurs.min = 0 || allEmptiable members
  | group .choice members occurs _ => occurs.min = 0 || anyEmptiable members
  | group .all members occurs _ => occurs.min = 0 || members.all fun
    | element _ _ occurs => occurs.min = 0
    | _ => true

def allEmptiable : List Particle → Bool
  | [] => true
  | p :: ps => p.isEmptiable && allEmptiable ps

def anyEmptiable : List Particle → Bool
  | [] => false
  | p :: ps => p.isEmptiable || anyEmptiable ps

end

theorem allEmptiable_iff {ps : List Particle} : allEmptiable ps = true ↔ ∀ p ∈ ps, p.isEmptiable = true := by
  induction ps with
  | nil => simp [allEmptiable]
  | cons p ps ih => simp [allEmptiable, ih]

theorem anyEmptiable_iff {ps : List Particle} : anyEmptiable ps = true ↔ ∃ p ∈ ps, p.isEmptiable = true := by
  induction ps with
  | nil => simp [anyEmptiable]
  | cons p ps ih => simp [anyEmptiable, ih]

theorem isEmptyGroup_group {compositor : Compositor} {members : List Particle} {occurs : Occurs}
    {source : Option Name} :
    (group compositor members occurs source).isEmptyGroup = true ↔ ∀ m ∈ members, m.isEmptyGroup = true := by
  rw [isEmptyGroup]
  induction members with
  | nil => simp [allEmptyGroups]
  | cons p ps ih => simp [allEmptyGroups, ih]

/-- No group in the particle is a choice without alternatives. -/
def HasAlternatives (p : Particle) : Prop := ∀ occurs source, group .choice [] occurs source ∉ p.parts

theorem HasAlternatives.member {compositor : Compositor} {members : List Particle} {occurs : Occurs}
    {source : Option Name} (h : (group compositor members occurs source).HasAlternatives) {m : Particle}
    (hm : m ∈ members) : m.HasAlternatives :=
  fun o src hq => h o src (mem_parts_group.2 (.inr ⟨m, hm, hq⟩))

/-! ### Taking nothing -/

variable {substitutes : Name → List Name}

theorem nil_mem_prod {ls : List (Language Name)} : [] ∈ ls.prod ↔ ∀ l ∈ ls, [] ∈ l := by
  induction ls with
  | nil => simp
  | cons l ls ih => simp [Language.mem_mul, List.append_eq_nil_iff, ih]

theorem mem_sum {ls : List (Language Name)} {w : List Name} : w ∈ ls.sum ↔ ∃ l ∈ ls, w ∈ l := by
  induction ls with
  | nil => simp
  | cons l ls ih => simp [Language.mem_add, ih]

theorem nil_mem_inTurn_allMembers {members : List Particle} :
    [] ∈ AllMember.inTurn (Matcher.allMembers substitutes members) ↔ members.all (fun
      | element _ _ occurs => occurs.min = 0
      | _ => true) = true := by
  change (∀ m ∈ Matcher.allMembers substitutes members, m.minimum = 0) ↔ _
  simp only [Matcher.allMembers, List.forall_mem_filterMap, List.all_eq_true]
  refine forall₂_congr fun m _ => ?_
  cases m <;> simp

theorem nil_mem_taken_iff {p : Particle} (hp : p.HasRanges) : [] ∈ p.taken substitutes ↔ p.isEmptiable = true := by
  induction p using Particle.induct with
  | element name key occurs =>
      rw [taken, Occurs.nil_mem_repeated hp.occurs, takenTerm, isEmptiable, decide_eq_true_iff]
      exact or_iff_left (by rintro ⟨_, _, hw⟩; cases hw)
  | wildcard w occurs =>
      rw [taken, Occurs.nil_mem_repeated hp.occurs, takenTerm, isEmptiable, decide_eq_true_iff]
      exact or_iff_left (by rintro ⟨_, _, hw⟩; cases hw)
  | group compositor members occurs source ih =>
      have hmembers : ∀ m ∈ members, ([] ∈ m.taken substitutes ↔ m.isEmptiable = true) :=
        fun m hm => ih m hm (hp.member hm)
      rw [taken, Occurs.nil_mem_repeated hp.occurs]
      cases compositor with
      | sequence =>
          rw [takenTerm, isEmptiable, takenByEach_eq_map, nil_mem_prod, List.forall_mem_map, Bool.or_eq_true,
            allEmptiable_iff, decide_eq_true_iff]
          exact or_congr_right (forall₂_congr hmembers)
      | choice =>
          rw [takenTerm, isEmptiable, takenByEach_eq_map, mem_sum, Bool.or_eq_true, anyEmptiable_iff,
            decide_eq_true_iff]
          simp only [List.mem_map, exists_exists_and_eq_and]
          exact or_congr_right (exists_congr fun m => and_congr_right (hmembers m))
      | all =>
          rw [takenTerm, isEmptiable, nil_mem_inTurn_allMembers, Bool.or_eq_true, decide_eq_true_iff]
          rfl

/-! ### Empty groups -/

theorem taken_le_one {p : Particle} (he : p.isEmptyGroup = true) : p.taken substitutes ≤ 1 := by
  induction p using Particle.induct with
  | element => cases he
  | wildcard => cases he
  | group compositor members occurs source ih =>
      have hmembers : ∀ l ∈ members.map (taken substitutes), l ≤ 1 :=
        List.forall_mem_map.2 fun m hm => ih m hm (isEmptyGroup_group.1 he m hm)
      have hterm : (group compositor members occurs source).takenTerm substitutes ≤ 1 := by
        cases compositor with
        | sequence =>
            rw [takenTerm, takenByEach_eq_map]
            exact List.prod_induction (· ≤ 1) (fun _ _ => mul_le_one') le_rfl hmembers
        | choice =>
            rw [takenTerm, takenByEach_eq_map]
            intro w hw
            obtain ⟨l, hl, hw⟩ := mem_sum.1 hw
            exact hmembers l hl hw
        | all =>
            have hnone : Matcher.allMembers substitutes members = [] := by
              refine List.filterMap_eq_nil_iff.2 fun m hm => ?_
              have := isEmptyGroup_group.1 he m hm
              cases m with
              | element => cases this
              | wildcard | group => rfl
            rw [takenTerm, hnone]
            intro w hw
            cases w with
            | nil => rfl
            | cons n ns => exact absurd hw.1 (by simp)
      rintro w ⟨k, _, hw⟩
      exact pow_le_one' hterm k hw

/-- Nothing but the empty list fits an empty group, and that only if the group permits to leave everything out. -/
theorem taken_of_isEmptyGroup {p : Particle} (hp : p.HasRanges) (he : p.isEmptyGroup = true) :
    p.taken substitutes = if p.isEmptiable then 1 else 0 := by
  ext w
  have hw : w ∈ p.taken substitutes ↔ w = [] ∧ p.isEmptiable = true := by
    rw [← nil_mem_taken_iff hp]
    constructor
    · intro h
      obtain rfl : w = [] := taken_le_one he h
      exact ⟨rfl, h⟩
    · rintro ⟨rfl, h⟩
      exact h
  rw [hw]
  cases p.isEmptiable <;> simp [Language.mem_one]

theorem isEmptiable_of_isEmptyGroup {p : Particle} (he : p.isEmptyGroup = true) (ha : p.HasAlternatives) :
    p.isEmptiable = true := by
  induction p using Particle.induct with
  | element => cases he
  | wildcard => cases he
  | group compositor members occurs source ih =>
      have hmembers : ∀ m ∈ members, m.isEmptiable = true :=
        fun m hm => ih m hm (isEmptyGroup_group.1 he m hm) (ha.member hm)
      cases compositor with
      | sequence =>
          rw [isEmptiable, allEmptiable_iff.2 hmembers, Bool.or_true]
      | choice =>
          obtain ⟨m, hm⟩ : ∃ m, m ∈ members := by
            refine List.exists_mem_of_ne_nil members ?_
            rintro rfl
            exact ha occurs source (mem_parts_self _)
          rw [isEmptiable, anyEmptiable_iff.2 ⟨m, hm, hmembers m hm⟩, Bool.or_true]
      | all =>
          rw [isEmptiable, Bool.or_eq_true]
          refine .inr (List.all_eq_true.2 fun m hm => ?_)
          have := isEmptyGroup_group.1 he m hm
          cases m with
          | element => cases this
          | wildcard | group => rfl

end Particle

namespace Schema

variable {substitutes : Name → List Name}

open Content

theorem fitting_of_isEmptyGroup {model : Option Particle} {mixed : Bool} {content : ContentType}
    (he : ∀ p, model = some p → p.isEmptyGroup = true) (h : contentOfModel model mixed = .ok content) :
    fitting substitutes content.model? = 1 := by
  rcases contentOfModel_ok h with ⟨p, hp, hne, _⟩ | ⟨_, rfl⟩
  · cases hne.symm.trans (he p hp)
  · cases mixed with
    | true => exact (fitting_eq_taken (by rintro _ ⟨⟩; decide)).trans (Particle.taken_emptySequence substitutes)
    | false => exact fitting_none

theorem model?_of_not_isEmptyGroup {p : Particle} {mixed : Bool} {content : ContentType}
    (he : p.isEmptyGroup = false) (h : contentOfModel (some p) mixed = .ok content) : content.model? = some p := by
  rcases contentOfModel_ok h with ⟨_, ⟨⟩, _, rfl⟩ | ⟨hall, _⟩
  · cases mixed <;> rfl
  · cases he.symm.trans (hall p rfl)

/-- Nothing is lost with a model that permits to leave everything out. -/
theorem fitting_of_isEmptiable {model : Option Particle} (hm : ∀ p, model = some p → p.HasRanges)
    (he : ∀ p, model = some p → p.isEmptyGroup = true → p.isEmptiable = true) {mixed : Bool} {content : ContentType}
    (h : contentOfModel model mixed = .ok content) :
    fitting substitutes content.model? = fitting substitutes model := by
  cases model with
  | none => rw [fitting_of_isEmptyGroup (by simp) h, fitting_none]
  | some p =>
      cases hp : p.isEmptyGroup with
      | false => rw [model?_of_not_isEmptyGroup hp h]
      | true =>
          rw [fitting_of_isEmptyGroup (by rintro _ ⟨⟩; exact hp) h, fitting_some (hm p rfl),
            Particle.taken_of_isEmptyGroup (hm p rfl) hp, if_pos (he p rfl hp)]

/-- The content that is made of a model permits the children that fit the model, unless the model is an empty group
that does not permit to leave everything out: then nothing fits the model, but the content permits to have no children.
Every group that is read may occur some number of times (`readModel_sound`). -/
theorem fitting_contentOfModel (substitutes : Name → List Name) {p : Particle} (hp : p.HasRanges) {mixed : Bool}
    {content : ContentType} (h : contentOfModel (some p) mixed = .ok content) :
    (fitting substitutes content.model? = fitting substitutes (some p) ↔
      (p.isEmptyGroup = true → p.isEmptiable = true)) ∧
    (p.isEmptyGroup = true → fitting substitutes content.model? = 1 ∧
      fitting substitutes (some p) = if p.isEmptiable then 1 else 0) ∧
    (p.HasAlternatives → fitting substitutes content.model? = fitting substitutes (some p)) := by
  have hempty (he : p.isEmptyGroup = true) : fitting substitutes content.model? = 1 ∧
      fitting substitutes (some p) = if p.isEmptiable then 1 else 0 :=
    ⟨fitting_of_isEmptyGroup (by rintro _ ⟨⟩; exact he) h,
      (fitting_some hp).trans (Particle.taken_of_isEmptyGroup hp he)⟩
  have hsame (he : p.isEmptyGroup = true → p.isEmptiable = true) :
      fitting substitutes content.model? = fitting substitutes (some p) :=
    fitting_of_isEmptiable (by rintro _ ⟨⟩; exact hp) (by rintro _ ⟨⟩; exact he) h
  refine ⟨⟨fun heq he => ?_, hsame⟩, hempty, fun ha => hsame fun he => Particle.isEmptiable_of_isEmptyGroup he ha⟩
  -- the empty list fits the content, and so the model
  rw [← Particle.nil_mem_taken_iff hp, ← fitting_some hp, ← heq, (hempty he).1]
  exact Language.nil_mem_one

/-- A choice without alternatives, behind a sequence that may be left out. -/
def hollow : Particle :=
  .group .sequence [.group .sequence [] ⟨0, none⟩ none, .group .choice [] ⟨2, some 3⟩ none] {} none

theorem fitting_contentOfModel_hollow : hollow.HasRanges ∧ contentOfModel (some hollow) false = .ok .empty ∧
    fitting (fun _ => []) (some hollow) = 0 ∧
    fitting (fun _ => []) ContentType.empty.model? ≠ fitting (fun _ => []) (some hollow) := by
  have hr : hollow.HasRanges := by decide
  have hcontent : contentOfModel (some hollow) false = .ok .empty := rfl
  obtain ⟨hiff, hempty, _⟩ := fitting_contentOfModel (fun _ => []) hr hcontent
  exact ⟨hr, hcontent, (hempty rfl).2, fun h => Bool.noConfusion (hiff.1 h rfl)⟩

end Schema

end XmlSchema
