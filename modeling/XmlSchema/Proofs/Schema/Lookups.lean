import Mathlib.Data.List.Nodup
import Mathlib.Data.List.Perm.Basic

/-!
Lists that hold the same for every key, in the same order. How what belongs to one key lies among the rest makes no
difference to lookups; and what is computed entry by entry keeps this apart.
-/

namespace XmlSchema.Schema

variable {α β κ ι : Type} [DecidableEq κ] [DecidableEq ι]

/-- Two lists hold the same for every key, in the same order. -/
def SameBy (key : α → κ) (l l' : List α) : Prop := ∀ k, (l.filter fun a => key a = k) = l'.filter fun a => key a = k

namespace SameBy

variable {key : α → κ} {l l' m m' : List α}

theorem symm (h : SameBy key l l') : SameBy key l' l := fun k => (h k).symm

theorem append (h : SameBy key l l') (h' : SameBy key m m') : SameBy key (l ++ m) (l' ++ m') := by
  intro k
  rw [List.filter_append, List.filter_append, h k, h' k]

theorem subset (h : SameBy key l l') : l ⊆ l' := by
  intro a ha
  have hmem : a ∈ l.filter fun b => key b = key a := List.mem_filter.2 ⟨ha, by simp⟩
  rw [h (key a)] at hmem
  exact List.mem_of_mem_filter hmem

theorem mem_iff (h : SameBy key l l') (a : α) : a ∈ l ↔ a ∈ l' := ⟨fun ha => h.subset ha, fun ha => h.symm.subset ha⟩

theorem find?_eq (h : SameBy key l l') (k : κ) : (l.find? fun a => key a = k) = l'.find? fun a => key a = k := by
  rw [← List.head?_filter, ← List.head?_filter, h k]

/-- Nothing can be in another order if no key comes twice. -/
theorem of_perm (h : l.Perm l') (hl : (l.map key).Nodup) : SameBy key l l' := by
  intro k
  have hperm := h.filter fun a => key a = k
  have hone : (l.filter fun a => key a = k).length ≤ 1 := by
    have hkeys : (l.filter fun a => key a = k).map key = List.replicate (l.filter fun a => key a = k).length k :=
      List.eq_replicate_iff.2 ⟨List.length_map _, by simp +contextual⟩
    rw [← List.nodup_replicate, ← hkeys]
    exact hl.sublist (List.filter_sublist.map key)
  generalize (l.filter fun a => key a = k) = m at hperm hone
  rcases m with _ | ⟨a, _ | ⟨b, m⟩⟩
  · exact (List.nil_perm.1 hperm).symm
  · exact (List.singleton_perm.1 hperm)
  · simp at hone

/-- What comes of the entries is the same by keys that tell the keys of the entries that it comes of. -/
theorem flatMap {key' : β → ι} {f : α → List β} (back : ι → κ) (h : SameBy key l l')
    (hf : ∀ a ∈ l, ∀ b ∈ f a, key a = back (key' b)) : SameBy key' (l.flatMap f) (l'.flatMap f) := by
  intro k
  -- nothing that counts for `k` comes of the entries of other keys
  have hkeep : ∀ m : List α, m ⊆ l → (m.flatMap f).filter (fun b => key' b = k) =
      ((m.filter fun a => key a = back k).flatMap f).filter fun b => key' b = k := by
    intro m hm
    induction m with
    | nil => rfl
    | cons a m ih =>
        obtain ⟨ha, hm⟩ := List.cons_subset.1 hm
        rw [List.flatMap_cons, List.filter_append, ih hm, List.filter_cons]
        split
        · rw [List.flatMap_cons, List.filter_append]
        · next hne =>
            rw [List.filter_eq_nil_iff.2, List.nil_append]
            intro b hb hk
            exact hne (by simpa [← of_decide_eq_true hk] using hf a ha b hb)
  rw [hkeep l fun _ ha => ha, hkeep l' h.symm.subset, h (back k)]

theorem filterMap {key' : β → ι} {f : α → Option β} (back : ι → κ) (h : SameBy key l l')
    (hf : ∀ a ∈ l, ∀ b, f a = some b → key a = back (key' b)) : SameBy key' (l.filterMap f) (l'.filterMap f) := by
  rw [List.filterMap_eq_flatMap_toList, List.filterMap_eq_flatMap_toList]
  exact h.flatMap back fun a ha b hb => hf a ha b (Option.mem_toList.1 hb)

theorem map {key' : β → ι} {f : α → β} (back : ι → κ) (h : SameBy key l l')
    (hf : ∀ a ∈ l, key a = back (key' (f a))) : SameBy key' (l.map f) (l'.map f) := by
  rw [← List.filterMap_eq_map]
  exact h.filterMap back fun a ha b hb => Option.some.inj hb ▸ hf a ha

theorem filter (p : α → Bool) (h : SameBy key l l') : SameBy key (l.filter p) (l'.filter p) := by
  intro k
  rw [List.filter_comm, h k, List.filter_comm]

theorem lookup_eq {l l' : List (κ × β)} (h : SameBy Prod.fst l l') (k : κ) : l.lookup k = l'.lookup k := by
  have hlookup (m : List (κ × β)) : m.lookup k = (m.find? fun a => a.1 = k).map Prod.snd := by
    induction m with
    | nil => rfl
    | cons a m ih =>
        rw [List.lookup_cons, List.find?_cons, ih]
        by_cases hk : a.1 = k
        · simp [hk]
        · rw [decide_eq_false hk, beq_false_of_ne (Ne.symm hk)]
  rw [hlookup, hlookup, h.find?_eq k]

end SameBy

theorem lookup_perm {l l' : List (κ × β)} (h : l.Perm l') (hl : (l.map Prod.fst).Nodup) (k : κ) :
    l'.lookup k = l.lookup k :=
  ((SameBy.of_perm h hl).lookup_eq k).symm

theorem lookup_of_mem {l : List (κ × β)} (hl : (l.map Prod.fst).Nodup) {k : κ} {b : β} (h : (k, b) ∈ l) :
    l.lookup k = some b := by
  obtain ⟨l₁, l₂, rfl⟩ := List.append_of_mem h
  rw [← lookup_perm List.perm_middle hl, List.lookup_cons_self]

end XmlSchema.Schema
