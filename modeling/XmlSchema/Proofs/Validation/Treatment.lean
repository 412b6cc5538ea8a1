import XmlSchema.Proofs.Content.Takers
import XmlSchema.Proofs.Schema.References
import XmlSchema.Validation.Declarations

/-!
How a child is treated that some leaf of the content model takes: as the first leaf wants that takes its name. It is
checked against a declaration, or reported to have none, or a wildcard that is not strict admits it.
-/

namespace XmlSchema

namespace Validation

theorem mem_zipLevels {α : Type} {x : α} {as bs : List (List α)} :
    x ∈ (zipLevels as bs).flatten ↔ x ∈ as.flatten ∨ x ∈ bs.flatten := by
  induction as generalizing bs with
  | nil => simp [zipLevels]
  | cons a as ih =>
      cases bs with
      | nil => simp [zipLevels]
      | cons b bs =>
          simp only [zipLevels, List.flatten_cons, List.mem_append, ih]
          tauto

theorem mem_levelsOfAll {q : Particle} {ps : List Particle} :
    q ∈ (levelsOfAll ps).flatten ↔ ∃ p ∈ ps, q ∈ (levels p).flatten := by
  induction ps with
  | nil => simp [levelsOfAll]
  | cons p ps ih => rw [levelsOfAll, mem_zipLevels, ih, List.exists_mem_cons_iff]

def isGroup : Particle → Bool
  | .group _ _ _ _ => true
  | _ => false

theorem mem_levels {p q : Particle} : q ∈ (levels p).flatten ↔ q ∈ p.parts ∧ isGroup q = false := by
  induction p using Particle.induct with
  | element name key occurs =>
      simp only [levels, Particle.parts, List.flatten_cons, List.flatten_nil, List.append_nil, List.mem_singleton]
      exact ⟨fun h => ⟨h, by rw [h]; rfl⟩, And.left⟩
  | wildcard w occurs =>
      simp only [levels, Particle.parts, List.flatten_cons, List.flatten_nil, List.append_nil, List.mem_singleton]
      exact ⟨fun h => ⟨h, by rw [h]; rfl⟩, And.left⟩
  | group compositor members occurs source ih =>
      rw [levels, List.flatten_cons, List.nil_append, mem_levelsOfAll, Particle.mem_parts_group, or_and_right]
      constructor
      · rintro ⟨m, hm, hq⟩
        obtain ⟨hq, hg⟩ := (ih m hm).1 hq
        exact .inr ⟨⟨m, hm, hq⟩, hg⟩
      · rintro (⟨rfl, hg⟩ | ⟨⟨m, hm, hq⟩, hg⟩)
        · exact Bool.noConfusion hg
        · exact ⟨m, hm, (ih m hm).2 ⟨hq, hg⟩⟩

theorem mem_leaves {model : Option Particle} {q : Particle} :
    q ∈ leaves model ↔ ∃ p, model = some p ∧ q ∈ p.parts ∧ isGroup q = false := by
  cases model with
  | none => simp [leaves]
  | some p =>
      rw [leaves, Option.map_some, Option.getD_some, mem_levels]
      simp

theorem mem_leaves_of_takes {model : Option Particle} {leaf : Particle} {substitutes : Name → List Name} {name : Name}
    (h : leaf ∈ (model.getD .emptySequence).parts) (ht : leaf.takes substitutes name) : leaf ∈ leaves model := by
  have hgroup : isGroup leaf = false := by
    cases leaf with
    | group => exact ht.elim
    | _ => rfl
  cases model with
  | none =>
      obtain rfl : leaf = .emptySequence := by
        simpa [Particle.emptySequence, Particle.parts, Particle.partsOfAll] using h
      exact ht.elim
  | some p => exact mem_leaves.2 ⟨p, rfl, h, hgroup⟩

/-! ### What leaves want -/

/-- What a leaf of a content model wants done about an element of a name that it takes: an element particle wants it
checked against its own declaration, or that of the substitute that it is, and a strict wildcard against the global one;
other wildcards want it left alone. -/
inductive Wants (s : Schema) (name : Name) : Particle → Treatment → Prop
  | own (key : ElementKey) (occurs : Occurs) (d : ElementDeclaration) (hd : s.declaration? name key = some d) :
      Wants s name (.element name key occurs) (.check d)
  | substitute (head : Name) (key : ElementKey) (occurs : Occurs) (d : ElementDeclaration) (hne : head ≠ name)
      (h : name ∈ s.substitutes head) (hd : s.element? name = some d) :
      Wants s name (.element head key occurs) (.check d)
  | declared (scope : NamespaceScope) (occurs : Occurs) (d : ElementDeclaration) (hd : s.element? name = some d) :
      Wants s name (.wildcard ⟨scope, .strict⟩ occurs) (.check d)
  | undeclared (scope : NamespaceScope) (occurs : Occurs) (hd : s.element? name = none) :
      Wants s name (.wildcard ⟨scope, .strict⟩ occurs) .undeclared
  | ignore (w : Wildcard) (occurs : Occurs) (h : w.strictness ≠ .strict) : Wants s name (.wildcard w occurs) .ignore

def admits (uri : Text) : Particle → Bool
  | .wildcard w _ => w.allows uri
  | _ => false

/-- The leaf whose wants decide about elements of a name: the first element particle that takes it, or else the first
wildcard. -/
def takerAmong? (s : Schema) (leaves : List Particle) (name : Name) : Option Particle :=
  (leaves.find? fun leaf => accepts s leaf name).or (leaves.find? (admits name.uri))

/-- A leaf of the model that may come before another one where that one takes an element of the name: it takes the name
itself, and is an element particle if the other one is. -/
structure Rivals (s : Schema) (model : Option Particle) (name : Name) (leaf other : Particle) : Prop where
  mem : other ∈ leaves model
  takes : other.takes s.substitutes name
  ranks : accepts s leaf name = true → accepts s other name = true

variable {s : Schema} {model : Option Particle} {name : Name} {leaf first : Particle}

/-- A leaf wants one thing only. -/
theorem Wants.unique {t t' : Treatment} (h : Wants s name leaf t) (h' : Wants s name leaf t') : t = t' := by
  cases h with
  | own key occurs d hd =>
      cases h' with
      | own _ _ _ hd' => exact congrArg _ (Option.some.inj (hd.symm.trans hd'))
      | substitute _ _ _ _ hne => exact absurd rfl hne
  | substitute head key occurs d hne _ hd =>
      cases h' with
      | own => exact absurd rfl hne
      | substitute _ _ _ _ _ _ hd' => exact congrArg _ (Option.some.inj (hd.symm.trans hd'))
  | declared scope occurs d hd =>
      cases h' with
      | declared _ _ _ hd' => exact congrArg _ (Option.some.inj (hd.symm.trans hd'))
      | undeclared _ _ hd' => exact nomatch hd.symm.trans hd'
      | ignore _ _ hw => exact absurd rfl hw
  | undeclared scope occurs hd =>
      cases h' with
      | declared _ _ _ hd' => exact nomatch hd.symm.trans hd'
      | undeclared => rfl
      | ignore _ _ hw => exact absurd rfl hw
  | ignore w occurs hw =>
      cases h' with
      | declared | undeclared => exact absurd rfl hw
      | ignore => rfl

theorem accepts_iff : accepts s leaf name = true ↔
    ∃ own key occurs, leaf = .element own key occurs ∧ leaf.takes s.substitutes name := by
  cases leaf with
  | element own key occurs =>
      simp [accepts, Particle.takes, Matcher.accepted, @eq_comm _ own name]
  | wildcard w occurs => simp [accepts]
  | group compositor members occurs source => simp [accepts]

theorem admits_iff {uri : Text} :
    admits uri leaf = true ↔ ∃ w occurs, leaf = .wildcard w occurs ∧ w.allows uri = true := by
  cases leaf <;> simp [admits]

theorem takes_iff : leaf.takes s.substitutes name ↔ accepts s leaf name = true ∨ admits name.uri leaf = true := by
  rw [accepts_iff, admits_iff]
  cases leaf <;> simp [Particle.takes]

/-- Of the leaves that take a name one comes first. -/
theorem exists_taker (hleaf : leaf ∈ leaves model) (ht : leaf.takes s.substitutes name) :
    ∃ first, takerAmong? s (leaves model) name = some first ∧ Rivals s model name leaf first := by
  rw [takerAmong?]
  -- wildcards have a say only where no element particle takes the name
  cases hf : (leaves model).find? (fun leaf => accepts s leaf name) with
  | some first =>
      have haccepts : accepts s first name = true := by simpa using List.find?_some hf
      exact ⟨first, rfl, List.mem_of_find?_eq_some hf, takes_iff.2 (.inl haccepts), fun _ => haccepts⟩
  | none =>
      have hnone : accepts s leaf name = false := by simpa using List.find?_eq_none.1 hf leaf hleaf
      have hadmits : admits name.uri leaf = true := (takes_iff.1 ht).resolve_left (by simp [hnone])
      obtain ⟨first, hfirst⟩ := Option.isSome_iff_exists.1 (List.find?_isSome.2 ⟨leaf, hleaf, hadmits⟩)
      refine ⟨first, hfirst, List.mem_of_find?_eq_some hfirst, takes_iff.2 (.inr (List.find?_some hfirst)), ?_⟩
      exact fun h => nomatch hnone.symm.trans h

theorem wildcardAmong?_eq_some {leaves : List Particle} {uri : Text} {w : Wildcard} {occurs : Occurs}
    (h : leaves.find? (admits uri) = some (.wildcard w occurs)) : wildcardAmong? leaves uri = some w := by
  obtain ⟨hw, before, behind, rfl, hbefore⟩ := List.find?_eq_some_iff_append.1 h
  rw [wildcardAmong?, List.findSome?_append, List.findSome?_eq_none_iff.2, Option.none_or, List.findSome?_cons]
  · simp only [show w.allows uri = true from hw, if_true]
  · intro leaf hleaf
    have hleaf := hbefore leaf hleaf
    cases leaf with
    | wildcard w' occurs' => simpa [admits] using hleaf
    | element | group => rfl

/-- A leaf that takes a name wants something, where what the model and substitutes refer to is declared. -/
theorem exists_wants (hr : s.Resolves model) (hs : s.SubstitutesDeclared) (hleaf : leaf ∈ leaves model)
    (ht : leaf.takes s.substitutes name) : ∃ t, Wants s name leaf t := by
  cases leaf with
  | element own key occurs =>
      rcases eq_or_ne own name with rfl | hne
      · obtain ⟨p, hp, hparts, _⟩ := mem_leaves.1 hleaf
        obtain ⟨d, hd⟩ := hr p hp own key occurs hparts
        exact ⟨_, .own key occurs d hd⟩
      · have hname : name ∈ s.substitutes own := (List.mem_cons.1 ht).resolve_left hne.symm
        obtain ⟨d, hd⟩ := hs own name hname
        exact ⟨_, .substitute own key occurs d hne hname hd⟩
  | wildcard w occurs =>
      obtain ⟨scope, strictness⟩ := w
      cases strictness with
      | strict =>
          cases hd : s.element? name with
          | some d => exact ⟨_, .declared scope occurs d hd⟩
          | none => exact ⟨_, .undeclared scope occurs hd⟩
      | lax | skip => exact ⟨_, .ignore _ occurs nofun⟩
  | group => exact ht.elim

/-- What is done about elements of a name is what the first leaf wants that takes it. -/
theorem treatment_eq {leaves : List Particle} {t : Treatment} (h : takerAmong? s leaves name = some first)
    (hw : Wants s name first t) : treatment s leaves name = t := by
  rw [takerAmong?] at h
  rw [treatment, declarationAmong?]
  cases hf : leaves.find? (fun leaf => accepts s leaf name) with
  | some leaf =>
      rw [hf] at h
      cases h
      have haccepts : accepts s first name = true := by simpa using List.find?_some hf
      cases hw with
      | own key occurs d hd => simp only [if_true, hd]
      | substitute head key occurs d hne _ hd => simp only [if_neg hne, hd]
      | declared | undeclared | ignore => exact nomatch haccepts
  | none =>
      rw [hf, Option.none_or] at h
      cases hw with
      | own | substitute => exact nomatch List.find?_some h
      | declared scope occurs d hd => simp only [wildcardAmong?_eq_some h, hd]
      | undeclared scope occurs hd => simp only [wildcardAmong?_eq_some h, hd]
      | ignore w occurs hstrict =>
          obtain ⟨scope, strictness⟩ := w
          simp only [wildcardAmong?_eq_some h]
          cases strictness with
          | strict => exact absurd rfl hstrict
          | lax | skip => rfl

/-- A child that some leaf takes is left alone only if a wildcard that is not strict admits it. -/
theorem exists_wildcard_of_ignore (hr : s.Resolves model) (hs : s.SubstitutesDeclared) (hleaf : leaf ∈ leaves model)
    (ht : leaf.takes s.substitutes name) (h : treatment s (leaves model) name = .ignore) :
    ∃ w occurs, .wildcard w occurs ∈ leaves model ∧ w.strictness ≠ .strict ∧ w.allows name.uri = true := by
  obtain ⟨first, hfirst, hrival⟩ := exists_taker hleaf ht
  obtain ⟨t, hw⟩ := exists_wants hr hs hrival.mem hrival.takes
  rw [treatment_eq hfirst hw] at h
  subst h
  cases hw with
  | ignore w occurs hstrict => exact ⟨w, occurs, hrival.mem, hstrict, hrival.takes⟩

/-! ### Declarations of children -/

theorem declares_of_declarationAmong {leaves : List Particle} {d : ElementDeclaration}
    (h : declarationAmong? s leaves name = some d) : s.Declares d := by
  rw [declarationAmong?] at h
  split at h
  · split at h
    · exact .of_declaration? h
    · exact .of_element? h
  · cases h

theorem declares_of_treatment {leaves : List Particle} {d : ElementDeclaration}
    (h : treatment s leaves name = .check d) : s.Declares d := by
  rw [treatment] at h
  split at h
  · next hd =>
      cases h
      exact declares_of_declarationAmong hd
  · split at h
    · split at h
      · next he =>
          cases h
          exact .of_element? he
      · exact Treatment.noConfusion h
    · exact Treatment.noConfusion h

end Validation

end XmlSchema
