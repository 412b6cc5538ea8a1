import Mathlib.Data.List.Nodup
import Mathlib.Logic.Relation
import XmlSchema.SimpleType.Builtin

/-!
The simple types that a simple type refers to. Every way through them comes to an end, and on the way of bases the chain
of a type lists what it passes.
-/

namespace XmlSchema.SimpleType

/-- The base of a type, the type of its items, and its members. -/
def links (t : SimpleType) : List SimpleType := t.base?.toList ++ t.item?.toList ++ t.members

/-- Induction over types: what holds of a type may be shown from what holds of the types in it. -/
@[elab_as_elim]
theorem induct {P : SimpleType → Prop} (primitive : ∀ p, P (primitive p))
    (restriction : ∀ name base facets, P base → P (restriction name base facets))
    (list : ∀ name item facets, (∀ t, item = some t → P t) → P (list name item facets))
    (union : ∀ name members facets, (∀ t ∈ members, P t) → P (union name members facets)) (t : SimpleType) : P t :=
  SimpleType.rec (motive_1 := P) (motive_2 := fun item => ∀ t, item = some t → P t)
    (motive_3 := fun members => ∀ t ∈ members, P t) primitive restriction list union (fun _ h => nomatch h)
    (fun _ h _ he => Option.some.inj he ▸ h) (by simp) (fun _ _ h hs => List.forall_mem_cons.2 ⟨h, hs⟩) t

@[simp] theorem links_restriction {name : Option Name} {base : SimpleType} {facets : Facets} :
    (restriction name base facets).links = [base] := rfl

@[simp] theorem links_list {name : Option Name} {item : Option SimpleType} {facets : Facets} :
    (list name item facets).links = item.toList := by simp [links, base?, item?, members]

@[simp] theorem links_union {name : Option Name} {members : List SimpleType} {facets : Facets} :
    (union name members facets).links = members := rfl

theorem links_primitive {p : Primitive} : (primitive p).links ⊆ [anySimple] := by
  cases p <;> simp [links, base?, item?, members]

theorem acc_links (t : SimpleType) : Acc (fun u v : SimpleType => u ∈ v.links) t := by
  induction t using induct with
  | primitive p =>
      have hany : Acc (fun u v : SimpleType => u ∈ v.links) anySimple :=
        Acc.intro _ fun u hu => absurd hu List.not_mem_nil
      refine Acc.intro _ fun u hu => ?_
      rwa [List.mem_singleton.1 (links_primitive hu)]
  | restriction name base facets ih =>
      refine Acc.intro _ fun u hu => ?_
      rwa [List.mem_singleton.1 hu]
  | list name item facets ih =>
      refine Acc.intro _ fun u hu => ih u ?_
      rwa [links_list, Option.mem_toList] at hu
  | union name members facets ih => exact Acc.intro _ ih

/-- The chain of a type is its way of bases, and ends at a type without one. -/
theorem exists_chain (t : SimpleType) : ∃ path, t.chain.reverse = t :: path ∧
    List.IsChain (fun u v => u.base? = some v) (t :: path) ∧ ∀ u ∈ (t :: path).getLast?, u.base? = none := by
  have hnone (t : SimpleType) (h : t.base? = none) : List.IsChain (fun u v => u.base? = some v) [t] ∧
      ∀ u ∈ [t].getLast?, u.base? = none :=
    ⟨.singleton t, fun u hu => Option.some.inj hu ▸ h⟩
  induction t using induct with
  | primitive p =>
      by_cases hp : p = .anySimpleType
      · subst hp
        exact ⟨[], rfl, hnone anySimple rfl⟩
      · refine ⟨[anySimple], by simp [chain, hp], .cons_cons ?_ (.singleton _), fun u hu => ?_⟩
        · cases p <;> first | rfl | exact absurd rfl hp
        · cases hu
          rfl
  | restriction name base facets ih =>
      obtain ⟨path, hchain, hpath, hend⟩ := ih
      refine ⟨base :: path, ?_, .cons_cons rfl hpath, fun u hu => hend u ?_⟩
      · rw [chain, List.reverse_append, hchain]
        rfl
      · rwa [List.getLast?_cons_cons] at hu
  | list name item facets => exact ⟨[], rfl, hnone _ rfl⟩
  | union name members facets => exact ⟨[], rfl, hnone _ rfl⟩

/-! ### Names -/

/-- The name of a type, if it has one, refers to the type. -/
def KnownBy (refers : Name → SimpleType → Prop) (t : SimpleType) : Prop := ∀ name, t.name? = some name → refers name t

/-- All types that can be reached from a type are those that their names refer to. -/
def Resolved (refers : Name → SimpleType → Prop) (t : SimpleType) : Prop :=
  ∀ u, Relation.ReflTransGen (fun v u : SimpleType => u ∈ v.links) t u → ∀ v ∈ u.links, v.KnownBy refers

namespace Resolved

variable {refers : Name → SimpleType → Prop} {t u : SimpleType}

theorem of_links (h : ∀ v ∈ t.links, v.KnownBy refers ∧ v.Resolved refers) : t.Resolved refers := by
  intro u hu v hv
  rcases hu.cases_head with rfl | ⟨w, hw, hu⟩
  · exact (h v hv).1
  · exact (h w hw).2 u hu v hv

theorem knownBy (h : t.Resolved refers) (hu : u ∈ t.links) : u.KnownBy refers := h t .refl u hu

theorem link (h : t.Resolved refers) (hu : u ∈ t.links) : u.Resolved refers := fun v hv => h v (hv.head hu)

end Resolved

/-! ### Built-in types -/

namespace Builtin

theorem nodup_names : (all.map name?).Nodup := by decide +kernel

theorem primitive_mem_all (p : Primitive) : primitive p ∈ all :=
  List.mem_append_left _ (List.mem_map_of_mem (by cases p <;> decide))

/-- A built-in type is a primitive, a step from an atomic one that enumerates nothing, or a list. -/
theorem mem_all_cases : ∀ t ∈ all, (∃ p, t = primitive p) ∨
    (∃ name, ∃ base ∈ all, ∃ facets, t = derived name base facets ∧ base.variety = .atomic ∧ facets.enumeration = none) ∨
    ∃ name, ∃ item ∈ all, t = listOf name item := by
  have hderived {n : Text} {base : SimpleType} {facets : Facets} (h : base ∈ all) (hatomic : base.variety = .atomic)
      (hfacets : facets.enumeration = none) : ∃ name, ∃ base' ∈ all, ∃ facets',
        derived n base facets = derived name base' facets' ∧ base'.variety = .atomic ∧ facets'.enumeration = none :=
    ⟨n, base, h, facets, rfl, hatomic, hfacets⟩
  refine List.forall_mem_append.2 ⟨fun t ht => ?_, ?_⟩
  · obtain ⟨p, _, rfl⟩ := List.mem_map.1 ht
    exact .inl ⟨p, rfl⟩
  · simp only [List.forall_mem_cons]
    and_intros
    all_goals first
      | exact .inr (.inl (hderived (primitive_mem_all .string) rfl rfl))
      | exact .inr (.inl (hderived (primitive_mem_all .decimal) rfl rfl))
      | exact .inr (.inr ⟨_, _, by simp [all], rfl⟩)
      | exact .inr (.inl (hderived (by simp [all]) rfl rfl))
      | exact fun _ h => nomatch h

/-- What built-in types refer to is built in. -/
theorem links_subset (t : SimpleType) (h : t ∈ all) : t.links ⊆ all := by
  rcases mem_all_cases t h with ⟨p, rfl⟩ | ⟨name, base, hbase, facets, rfl, _⟩ | ⟨name, item, hitem, rfl⟩
  · exact fun u hu => List.mem_singleton.1 (links_primitive hu) ▸ primitive_mem_all _
  · exact List.cons_subset.2 ⟨hbase, List.nil_subset _⟩
  · exact List.cons_subset.2 ⟨hitem, List.nil_subset _⟩

end Builtin

theorem builtin?_of_mem {t : SimpleType} (h : t ∈ Builtin.all) {n : Text} (hn : t.name? = Builtin.named n) :
    builtin? n = some t := by
  rw [builtin?]
  cases hf : Builtin.all.find? fun s => s.name? = Builtin.named n with
  | none => exact absurd (List.find?_eq_none.1 hf t h) (by simp [hn])
  | some u =>
      have hu : u.name? = Builtin.named n := by simpa using List.find?_some hf
      exact congrArg some
        (List.inj_on_of_nodup_map Builtin.nodup_names (List.mem_of_find?_eq_some hf) h (hu.trans hn.symm))

theorem mem_of_builtin? {n : Text} {t : SimpleType} (h : builtin? n = some t) :
    t ∈ Builtin.all ∧ t.name? = Builtin.named n := by
  rw [builtin?] at h
  exact ⟨List.mem_of_find?_eq_some h, by simpa using List.find?_some h⟩

end XmlSchema.SimpleType
