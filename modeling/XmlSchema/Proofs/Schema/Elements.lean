import XmlSchema.Proofs.Schema.References

/-!
Reading of elements. The types of elements leave elements behind in turn, but no more than the schema holds; when all
of these have been read, every type refers to elements that have been read.
-/

namespace XmlSchema.Schema

variable {s : Scope} {t t' : Traces}

/-- What comes of reading elements: their types, and the elements left behind that stand in these types. -/
structure Gathered (s : Scope) (pending : List PendingElement) (read : List ReadElement) (left : List PendingElement) :
    Prop where
  all : ∀ p ∈ pending, ∃ e ∈ read, e.pending = p
  deeper : ∀ q ∈ left, q.key ≠ .named ∧ ∃ p ∈ pending, q.item.height < p.item.height
  refersIn : ∀ known : Name → ElementKey → Prop, s.RefersIn known → (∀ q ∈ left, ∀ name, known name q.key) →
    ∀ e ∈ read, ∀ type, e.type = some type → type.RefersIn known

namespace Gathered

theorem nil : Gathered s [] [] [] := ⟨by simp, by simp, by simp⟩

theorem cons {p : PendingElement} {pending left left' : List PendingElement} {e : ReadElement} {read : List ReadElement}
    (h : Gathered s [p] [e] left) (h' : Gathered s pending read left') :
    Gathered s (p :: pending) (e :: read) (left' ++ left) where
  all := by
    refine List.forall_mem_cons.2 ⟨?_, fun q hq => ?_⟩
    · obtain ⟨e', he', hp⟩ := h.all p (List.mem_singleton_self p)
      exact ⟨e', List.mem_cons.2 (.inl (List.mem_singleton.1 he')), hp⟩
    · obtain ⟨e', he', hq⟩ := h'.all q hq
      exact ⟨e', List.mem_cons_of_mem _ he', hq⟩
  deeper := by
    intro q hq
    rcases List.mem_append.1 hq with hq | hq
    · obtain ⟨hkey, p', hp', hlt⟩ := h'.deeper q hq
      exact ⟨hkey, p', List.mem_cons_of_mem _ hp', hlt⟩
    · obtain ⟨hkey, p', hp', hlt⟩ := h.deeper q hq
      exact ⟨hkey, p', List.mem_cons.2 (.inl (List.mem_singleton.1 hp')), hlt⟩
  refersIn := by
    intro known hs hknown
    rw [List.forall_mem_append] at hknown
    exact List.forall_mem_cons.2 ⟨h.refersIn known hs hknown.2 e (List.mem_singleton_self e),
      h'.refersIn known hs hknown.1⟩

end Gathered

theorem readElementType_gathered {p : PendingElement} {e : ReadElement} (h : readElementType s p t = .ok (e, t')) :
    ∃ left, t'.elements = left ++ t.elements ∧ Gathered s [p] [e] left := by
  obtain ⟨hp, hread⟩ := readElementType_ok h
  have hread := readOwnType_ok hread
  have gathered {left : List PendingElement}
      (hdeeper : ∀ q ∈ left, q.key ≠ .named ∧ q.item.height < p.item.height)
      (hrefers : ∀ known : Name → ElementKey → Prop, s.RefersIn known → (∀ q ∈ left, ∀ name, known name q.key) →
        ∀ type, e.type = some type → type.RefersIn known) : Gathered s [p] [e] left := by
    refine ⟨by simp [hp], fun q hq => ⟨(hdeeper q hq).1, p, List.mem_singleton_self p, (hdeeper q hq).2⟩, ?_⟩
    intro known hs hknown e' he'
    rw [List.mem_singleton.1 he']
    exact hrefers known hs hknown
  generalize e.type = x at hread gathered
  cases hread with
  | named name type htype ht =>
      refine ⟨[], by rw [ht]; rfl, gathered (by simp) fun known hs _ type' htype' => ?_⟩
      cases htype'
      exact typeReference_refersIn hs htype
  | complex first hi hk type htype =>
      obtain ⟨left, he, hleft, hpaths⟩ := readComplexType_leaves htype
      have hheight := Item.height_lt_of_mem_items (List.mem_filter.1 hi).1
      refine ⟨left, he, gathered (fun q hq => ?_) fun known hs hknown type' htype' => ?_⟩
      · exact ⟨by simp [(hleft q hq).key], Nat.lt_of_le_of_lt (hleft q hq).within.height_le hheight⟩
      · cases htype'
        refine readComplexType_refersIn hs (fun path hpath name => ?_) htype
        obtain ⟨q, hq, hkey⟩ := Leaves.exists_of_mem hleft hpaths hpath
        exact hkey ▸ hknown q hq name
  | simple type ht =>
      refine ⟨[], by rw [ht]; rfl, gathered (by simp) fun known _ _ type' htype' => ?_⟩
      cases htype'
      trivial
  | untyped hh ht => exact ⟨[], by rw [ht]; rfl, gathered (by simp) fun _ _ _ _ htype => nomatch htype⟩
  | anything ht =>
      refine ⟨[], by rw [ht]; rfl, gathered (by simp) fun known _ _ type' htype' => ?_⟩
      cases htype'
      exact ComplexType.refersIn_anyType

theorem mapM_readElementType_gathered {pending : List PendingElement} {read : List ReadElement}
    (h : pending.mapM (readElementType s) t = .ok (read, t')) :
    ∃ left, t'.elements = left ++ t.elements ∧ Gathered s pending read left := by
  induction pending generalizing read t with
  | nil =>
      rw [List.mapM_nil, Reading.pure_eq_ok] at h
      obtain ⟨rfl, rfl⟩ := h
      exact ⟨[], rfl, .nil⟩
  | cons p pending ih =>
      simp only [List.mapM_cons, Reading.bind_eq_ok, Reading.pure_eq_ok] at h
      obtain ⟨e, t₁, he, read', _, h, rfl, rfl⟩ := h
      obtain ⟨left₁, he₁, h₁⟩ := readElementType_gathered he
      obtain ⟨left, he, h⟩ := ih h
      exact ⟨left ++ left₁, by rw [he, he₁, List.append_assoc], h₁.cons h⟩

/-- All that has been left behind gets read, and then nothing refers to any other local element. -/
structure Complete (s : Scope) (pending : List PendingElement) (read : List ReadElement) : Prop where
  all : ∀ p ∈ pending, ∃ e ∈ read, e.pending = p
  refersIn : ∀ known : Name → ElementKey → Prop, s.RefersIn known →
    (∀ e ∈ read, e.pending.key ≠ .named → ∀ name, known name e.pending.key) →
    ∀ e ∈ read, ∀ type, e.type = some type → type.RefersIn known

/-- Each level of reading ends at items of lesser height, so the levels are enough for the greatest of them. -/
theorem readElements_complete {depth : Nat} {pending : List PendingElement} {read : List ReadElement}
    (hheight : ∀ p ∈ pending, p.item.height < depth) (ht : t.elements = [])
    (h : readElements s depth pending t = .ok (read, t')) : Complete s pending read := by
  induction depth generalizing pending read t with
  | zero =>
      rw [readElements, Reading.pure_eq_ok] at h
      obtain ⟨rfl, rfl⟩ := h
      exact ⟨fun p hp => absurd (hheight p hp) (Nat.not_lt_zero _), by simp⟩
  | succ depth ih =>
      rw [readElements] at h
      simp only [Reading.ite_eq_ok, Reading.bind_eq_ok, Reading.pure_eq_ok, Reading.get_eq_ok, Reading.set_eq_ok] at h
      rcases h with ⟨hempty, rfl, rfl⟩ | ⟨_, first, t₁, hfirst, _, _, ⟨rfl, rfl⟩, _, _, rfl, later, _, h, rfl, rfl⟩
      · rw [List.isEmpty_iff.1 hempty]
        exact ⟨by simp, by simp⟩
      · obtain ⟨left, he, hg⟩ := mapM_readElementType_gathered hfirst
        rw [ht, List.append_nil] at he
        rw [he] at h
        have hlater : Complete s left.reverse later := by
          refine ih (fun q hq => ?_) rfl h
          obtain ⟨_, p, hp, hlt⟩ := hg.deeper q (List.mem_reverse.1 hq)
          have := hheight p hp
          omega
        refine ⟨fun p hp => ?_, fun known hs hknown e he => ?_⟩
        · obtain ⟨e, he, hp⟩ := hg.all p hp
          exact ⟨e, List.mem_append_left _ he, hp⟩
        · rcases List.mem_append.1 he with he | he
          · refine hg.refersIn known hs (fun q hq name => ?_) e he
            obtain ⟨e', he', hq'⟩ := hlater.all q (List.mem_reverse.2 hq)
            have hkey := (hg.deeper q hq).1
            rw [← hq'] at hkey ⊢
            exact hknown e' (List.mem_append_right _ he') hkey name
          · exact hlater.refersIn known hs (fun e he => hknown e (List.mem_append_right _ he)) e he

end XmlSchema.Schema
