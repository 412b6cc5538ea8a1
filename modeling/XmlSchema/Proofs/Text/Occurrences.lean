import Mathlib
import XmlSchema.Text

/-!
Where a mark stands in a text. A text is split at the place where the mark occurs first, if it occurs at all.
-/

namespace XmlSchema.Text

theorem dropPrefix?_eq_some {lead t after : Text} : dropPrefix? lead t = some after ↔ t = lead ++ after := by
  induction lead generalizing t with
  | nil => simp [dropPrefix?]
  | cons l lead ih =>
      cases t with
      | nil => simp [dropPrefix?]
      | cons c t =>
          rw [dropPrefix?, List.cons_append, List.cons.injEq]
          split
          · next h => simp [ih, h]
          · next h => simp [Ne.symm h]

theorem dropPrefix?_eq_none {lead t : Text} : dropPrefix? lead t = none ↔ ¬ lead <+: t := by
  rw [Option.eq_none_iff_forall_ne_some]
  simp only [ne_eq, dropPrefix?_eq_some]
  exact ⟨fun h ⟨after, ht⟩ => h after ht.symm, fun h after ht => h ⟨after, ht.symm⟩⟩

/-- The text ends with the mark, which stands nowhere before that. -/
def EndsAtNext (mark t : Text) : Prop := mark <:+ t ∧ ∀ u, u ++ mark <+: t → u ++ mark = t

variable {mark t before after : Text}

theorem EndsAtNext.unique {u u' rest rest' : Text} (h : EndsAtNext mark u) (h' : EndsAtNext mark u')
    (he : u ++ rest = u' ++ rest') : u = u' ∧ rest = rest' := by
  have hu : u = u' := by
    obtain ⟨⟨v, hv⟩, hnext⟩ := h
    obtain ⟨⟨v', hv'⟩, hnext'⟩ := h'
    rcases List.prefix_or_prefix_of_prefix (he ▸ List.prefix_append u rest) (List.prefix_append u' rest') with hle | hle
    · exact hv.symm.trans (hnext' v (hv ▸ hle))
    · exact (hv'.symm.trans (hnext v' (hv' ▸ hle))).symm
  subst hu
  exact ⟨rfl, List.append_cancel_left he⟩

theorem endsAtNext_self (mark : Text) : EndsAtNext mark mark := by
  refine ⟨List.suffix_rfl, fun u hu => ?_⟩
  have hlength := hu.length_le
  rw [List.length_append] at hlength
  obtain rfl : u = [] := List.length_eq_zero_iff.1 (by omega)
  rfl

theorem endsAtNext_cons {c : CodePoint} (h : ¬ mark <+: c :: (t ++ mark ++ after)) :
    EndsAtNext mark (c :: (t ++ mark)) ↔ EndsAtNext mark (t ++ mark) := by
  constructor
  · rintro ⟨-, hnext⟩
    refine ⟨List.suffix_append t mark, fun u hu => ?_⟩
    exact List.tail_eq_of_cons_eq (hnext (c :: u) (List.cons_prefix_cons.2 ⟨rfl, hu⟩))
  · rintro ⟨hend, hnext⟩
    refine ⟨hend.trans (List.suffix_cons c _), fun u hu => ?_⟩
    cases u with
    | nil => exact absurd (hu.trans (List.prefix_append (c :: (t ++ mark)) after)) h
    | cons d u =>
        obtain ⟨rfl, hlater⟩ := List.cons_prefix_cons.1 hu
        exact congrArg (List.cons d) (hnext u hlater)

theorem splitAtFrom?_eq_some {passed : Text} : splitAtFrom? mark passed t = some (before, after) ↔
    ∃ u, before = passed.reverse ++ u ∧ t = u ++ mark ++ after ∧ EndsAtNext mark (u ++ mark) := by
  induction t generalizing passed with
  | nil =>
      rw [splitAtFrom?]
      simp only [Option.map_eq_some_iff, dropPrefix?_eq_some, Prod.mk.injEq]
      constructor
      · rintro ⟨rest, hrest, rfl, rfl⟩
        exact ⟨[], (List.append_nil _).symm, hrest, endsAtNext_self mark⟩
      · rintro ⟨u, rfl, ht, -⟩
        obtain ⟨hu, rfl⟩ := List.append_eq_nil_iff.1 ht.symm
        obtain ⟨rfl, rfl⟩ := List.append_eq_nil_iff.1 hu
        exact ⟨[], rfl, (List.append_nil _).symm, rfl⟩
  | cons c t ih =>
      rw [splitAtFrom?]
      split
      · next rest hrest =>
          rw [dropPrefix?_eq_some] at hrest
          rw [Option.some.injEq, Prod.mk.injEq]
          constructor
          · rintro ⟨rfl, rfl⟩
            exact ⟨[], (List.append_nil _).symm, hrest, endsAtNext_self mark⟩
          · rintro ⟨u, rfl, ht, hu⟩
            obtain ⟨hmark, rfl⟩ := hu.unique (endsAtNext_self mark) (ht.symm.trans hrest)
            obtain rfl : u = [] := List.append_cancel_right (hmark.trans (List.nil_append mark).symm)
            exact ⟨(List.append_nil _).symm, rfl⟩
      · next hnone =>
          rw [dropPrefix?_eq_none] at hnone
          rw [ih]
          constructor
          · rintro ⟨u, rfl, rfl, hu⟩
            exact ⟨c :: u, by simp, rfl, (endsAtNext_cons hnone).2 hu⟩
          · rintro ⟨u, rfl, ht, hu⟩
            cases u with
            | nil => exact absurd ⟨after, ht.symm⟩ hnone
            | cons d u =>
                obtain ⟨rfl, rfl⟩ := List.cons.inj ht
                exact ⟨u, by simp, rfl, (endsAtNext_cons hnone).1 hu⟩

theorem splitAt?_eq_some_iff :
    splitAt? mark t = some (before, after) ↔ t = before ++ mark ++ after ∧ EndsAtNext mark (before ++ mark) := by
  rw [splitAt?, splitAtFrom?_eq_some]
  simp

theorem splitAtFrom?_eq_none {passed : Text} : splitAtFrom? mark passed t = none ↔ ¬ mark <:+: t := by
  induction t generalizing passed with
  | nil => simp [splitAtFrom?, dropPrefix?_eq_none]
  | cons c t ih =>
      rw [splitAtFrom?, List.infix_cons_iff, not_or]
      split
      · next rest hrest =>
          rw [dropPrefix?_eq_some] at hrest
          simp [hrest]
      · next hnone => rw [ih, and_iff_right (dropPrefix?_eq_none.1 hnone)]

theorem splitAt?_eq_none : splitAt? mark t = none ↔ ¬ mark <:+: t := splitAtFrom?_eq_none

/-- One character stands at the end only, if it does not stand before. -/
theorem endsAtNext_singleton {c : CodePoint} : EndsAtNext [c] (t ++ [c]) ↔ c ∉ t := by
  constructor
  · rintro ⟨-, hnext⟩ hc
    obtain ⟨u, v, rfl⟩ := List.append_of_mem hc
    have hend := hnext u ⟨v ++ [c], by simp⟩
    simp at hend
  · intro hc
    refine ⟨List.suffix_append t [c], fun u hu => ?_⟩
    obtain ⟨v, hv⟩ := hu
    rw [List.append_assoc, List.singleton_append] at hv
    cases v with
    | nil => exact hv
    | cons d v =>
        have ht : u ++ c :: (d :: v).dropLast = t := by simpa using congrArg List.dropLast hv
        exact absurd (ht ▸ List.mem_append_right u List.mem_cons_self) hc

/-- A text is split at the first place of a character. -/
theorem splitAt?_eq_some {c : CodePoint} :
    splitAt? [c] t = some (before, after) ↔ t = before ++ c :: after ∧ c ∉ before := by
  rw [splitAt?_eq_some_iff, endsAtNext_singleton, List.append_assoc, List.singleton_append]

end XmlSchema.Text
