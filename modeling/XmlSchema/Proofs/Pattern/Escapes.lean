import XmlSchema.Pattern.Reader
import XmlSchema.Proofs.Pattern.Categories
import XmlSchema.Proofs.Text.Occurrences

/-!
What stands behind a backslash, and that it is read as what it stands for.
-/

namespace XmlSchema

namespace Pattern

open CodePointSet

/-! ### Sets with a name -/

/-- The names that a property may have, and the sets that it stands for. -/
inductive Property : Text → Set CodePoint → Prop
  | block {name : Text} {n : String} {r : CodePointRange}
      (h : blocks.find? (fun (n, _) => Text.ofString n = name) = some (n, r)) :
      Property ("Is" ++ name) {c | r.lo ≤ c.val ∧ c.val ≤ r.hi}
  | category (k : Category) : Property [k.letters.1, k.letters.2] {c | c.HasCategory fun j => j = k}
  | group {letter : Char} (h : letter ∈ ['L', 'M', 'N', 'P', 'Z', 'S', 'C']) :
      Property [(letter : CodePoint)] {c | c.HasCategory fun k => k.letters.1 = letter}

theorem ofString_name (k : Category) : Text.ofString k.name = [k.letters.1, k.letters.2] := by
  rw [Category.name_eq, Text.ofString, String.toList_ofList]
  rfl

theorem majorSet_ofList (letters : List Char) :
    majorSet (String.ofList letters) = categorySet fun k => letters.contains k.letters.1 := by
  rw [majorSet, String.toList_ofList]
  congr
  funext k
  rw [Category.name_eq, String.toList_ofList]
  rfl

theorem find?_letters (k : Category) :
    Category.all.find? (fun c => Text.ofString c.name = [(k.letters.1 : CodePoint), (k.letters.2 : CodePoint)]) =
      some k := by
  simp only [ofString_name]
  cases k <;> rfl

theorem isProper_blocks : ∀ b ∈ blocks, b.2.IsProper := by
  decide

theorem propertySet?_sound {name : Text} {p : CodePointSet} (h : propertySet? name = .ok p) :
    p.IsProper ∧ Property name p.elements := by
  unfold propertySet? at h
  split at h
  · next block hb =>
      rw [Text.dropPrefix?_eq_some] at hb
      split at h
      · next n r hfound =>
          cases h
          refine ⟨fun _ hr => List.mem_singleton.1 hr ▸ isProper_blocks _ (List.mem_of_find?_eq_some hfound), ?_⟩
          rw [hb, elements_singleton]
          exact .block hfound
      · exact nomatch h
  · split at h
    · next k hfound =>
        rw [← Except.ok.inj h]
        obtain rfl : Text.ofString k.name = name := by simpa using List.find?_some hfound
        rw [elements_categorySet, ofString_name]
        refine ⟨isProper_categorySet _, ?_⟩
        simpa using Property.category k
    · split at h
      · next letter hfound =>
          rw [← Except.ok.inj h]
          have hmem : letter ∈ ['L', 'M', 'N', 'P', 'Z', 'S', 'C'].map fun c => String.ofList [c] :=
            List.mem_of_find?_eq_some hfound
          obtain rfl : Text.ofString letter = name := by simpa using List.find?_some hfound
          obtain ⟨c, hc, rfl⟩ := List.mem_map.1 hmem
          rw [majorSet_ofList, elements_normalize, elements_categorySet, Text.ofString, String.toList_ofList]
          refine ⟨(isProper_categorySet _).normalize, ?_⟩
          simpa using Property.group hc
      · exact nomatch h

theorem find?_group {c : Char} (h : c ∈ ['L', 'M', 'N', 'P', 'Z', 'S', 'C']) :
    (["L", "M", "N", "P", "Z", "S", "C"].find? fun n => Text.ofString n = [(c : CodePoint)]) =
      some (String.ofList [c]) := by
  simp only [List.mem_cons, List.not_mem_nil, or_false] at h
  rcases h with rfl | rfl | rfl | rfl | rfl | rfl | rfl <;> rfl

theorem propertySet?_complete {name : Text} {s : Set CodePoint} (h : Property name s) :
    ∃ p, propertySet? name = .ok p ∧ p.elements = s := by
  cases h with
  | @block _ _ r h =>
      refine ⟨[r], ?_, elements_singleton⟩
      rw [propertySet?, Text.dropPrefix?_eq_some.2 rfl]
      simp only [h]
  | category k =>
      have hblock : Text.dropPrefix? "Is" [(k.letters.1 : CodePoint), (k.letters.2 : CodePoint)] = none := by
        cases k <;> rfl
      refine ⟨categorySet fun j => j = k, ?_, by simp [elements_categorySet]⟩
      simp only [propertySet?, hblock, find?_letters]
  | @group c h =>
      have hblock : Text.dropPrefix? "Is" [(c : CodePoint)] = none := by
        refine Option.eq_none_iff_forall_ne_some.2 fun after ha => ?_
        have := congrArg List.length (Text.dropPrefix?_eq_some.1 ha)
        simp [Text.ofString] at this
      have hcategory : (Category.all.find? fun k => Text.ofString k.name = [(c : CodePoint)]) = none := by
        refine List.find?_eq_none.2 fun k _ => ?_
        simp [ofString_name]
      refine ⟨(majorSet (String.ofList [c])).normalize, ?_, ?_⟩
      · simp only [propertySet?, hblock, hcategory, find?_group h]
      · rw [elements_normalize, majorSet_ofList, elements_categorySet]
        simp

/-- The letters that a set has, the small one for the set and the capital one for its complement. -/
inductive NamedSet : Char → Char → Set CodePoint → Prop
  | space : NamedSet 's' 'S' {c | c.isSpace = true}
  | nameStart : NamedSet 'i' 'I' {c | NameCharacter.isStart c = true}
  | nameFollow : NamedSet 'c' 'C' {c | NameCharacter.isFollow c = true}
  | digit : NamedSet 'd' 'D' {c | c.HasCategory fun k => k = .nd}
  | word : NamedSet 'w' 'W' {c | c.HasCategory fun k => ['P', 'Z', 'C'].contains k.letters.1}ᶜ

theorem isProper_start : IsProper NameCharacter.start := by
  decide

theorem isProper_follow : IsProper NameCharacter.follow :=
  IsProper.normalize (isProper_append.2 ⟨isProper_start, by decide⟩)

theorem isProper_spaceSet : spaceSet.IsProper := by
  decide

theorem elements_spaceSet : spaceSet.elements = {c | c.isSpace = true} := by
  ext c
  simp [elements, spaceSet, CodePointRange.contains, CodePoint.isSpace]
  omega

theorem majorSet_eq : majorSet "PZC" = categorySet fun k => ['P', 'Z', 'C'].contains k.letters.1 :=
  majorSet_ofList ['P', 'Z', 'C']

theorem NamedSet.setEscape? {c d : Char} {s : Set CodePoint} (h : NamedSet c d s) :
    ∃ p : CodePointSet, p.IsProper ∧ p.elements = s ∧ Pattern.setEscape? c = some p ∧
      Pattern.setEscape? d = some p.complement := by
  cases h with
  | space => exact ⟨spaceSet, isProper_spaceSet, elements_spaceSet, rfl, rfl⟩
  | nameStart => exact ⟨NameCharacter.start, isProper_start, rfl, rfl, rfl⟩
  | nameFollow => exact ⟨NameCharacter.follow, isProper_follow, rfl, rfl, rfl⟩
  | digit => exact ⟨digitSet, isProper_categorySet _, elements_categorySet _, rfl, rfl⟩
  | word =>
      have hp : (majorSet "PZC").IsProper := majorSet_eq ▸ isProper_categorySet _
      refine ⟨wordSet, hp.complement, ?_, rfl, rfl⟩
      rw [wordSet, elements_complement hp, majorSet_eq, elements_categorySet]

theorem exists_namedSet {c : CodePoint} {p : CodePointSet} (h : setEscape? c = some p) :
    ∃ (a b : Char) (s : Set CodePoint), NamedSet a b s ∧ p.IsProper ∧
      (c = a ∧ p.elements = s ∨ c = b ∧ p.elements = sᶜ) := by
  obtain ⟨a, b, s, hn, hc⟩ : ∃ (a b : Char) (s : Set CodePoint), NamedSet a b s ∧ (c = a ∨ c = b) := by
    unfold setEscape? at h
    split at h
    · next hc => exact ⟨_, _, _, .space, .inl hc⟩
    split at h
    · next hc => exact ⟨_, _, _, .space, .inr hc⟩
    split at h
    · next hc => exact ⟨_, _, _, .nameStart, .inl hc⟩
    split at h
    · next hc => exact ⟨_, _, _, .nameStart, .inr hc⟩
    split at h
    · next hc => exact ⟨_, _, _, .nameFollow, .inl hc⟩
    split at h
    · next hc => exact ⟨_, _, _, .nameFollow, .inr hc⟩
    split at h
    · next hc => exact ⟨_, _, _, .digit, .inl hc⟩
    split at h
    · next hc => exact ⟨_, _, _, .digit, .inr hc⟩
    split at h
    · next hc => exact ⟨_, _, _, .word, .inl hc⟩
    split at h
    · next hc => exact ⟨_, _, _, .word, .inr hc⟩
    exact nomatch h
  obtain ⟨q, hq, hqs, ha, hb⟩ := hn.setEscape?
  refine ⟨a, b, s, hn, ?_⟩
  rcases hc with rfl | rfl
  · obtain rfl := Option.some.inj (h.symm.trans ha)
    exact ⟨hq, .inl ⟨rfl, hqs⟩⟩
  · obtain rfl := Option.some.inj (h.symm.trans hb)
    exact ⟨hq.complement, .inr ⟨rfl, by rw [elements_complement hq, hqs]⟩⟩

/-! ### Behind a backslash -/

/-- What may stand behind a backslash for a set. -/
inductive SetEscape : Text → Set CodePoint → Prop
  | named {c d : Char} {s : Set CodePoint} (h : NamedSet c d s) : SetEscape [(c : CodePoint)] s
  | unnamed {c d : Char} {s : Set CodePoint} (h : NamedSet c d s) : SetEscape [(d : CodePoint)] sᶜ
  | property {name : Text} {s : Set CodePoint} (h : Property name s) (hn : ('}' : CodePoint) ∉ name) :
      SetEscape ('p' :: '{' :: (name ++ [('}' : CodePoint)])) s
  | notProperty {name : Text} {s : Set CodePoint} (h : Property name s) (hn : ('}' : CodePoint) ∉ name) :
      SetEscape ('P' :: '{' :: (name ++ [('}' : CodePoint)])) sᶜ

variable {t rest : Text} {s : Set CodePoint} {p : CodePointSet}

theorem readProperty_eq_ok : readProperty t = .ok (p, rest) ↔
    ∃ name, t = ('{' : CodePoint) :: (name ++ ('}' : CodePoint) :: rest) ∧ ('}' : CodePoint) ∉ name ∧
      propertySet? name = .ok p := by
  have hmark : Text.ofString "\x7d" = [('}' : CodePoint)] := rfl
  rw [readProperty, hmark]
  constructor
  · intro h
    split at h
    · exact nomatch h
    · next inner hinner =>
        split at h
        · exact nomatch h
        · next name after hsplit =>
            obtain ⟨rfl, hn⟩ := Text.splitAt?_eq_some.1 hsplit
            rw [Text.dropPrefix?_eq_some] at hinner
            cases hp : propertySet? name with
            | error f => rw [hp] at h; exact nomatch h
            | ok q =>
                rw [hp] at h
                cases h
                exact ⟨name, hinner, hn, hp⟩
  · rintro ⟨name, rfl, hn, hp⟩
    have hinner : Text.dropPrefix? "\x7b" (('{' : CodePoint) :: (name ++ ('}' : CodePoint) :: rest)) =
        some (name ++ ('}' : CodePoint) :: rest) := Text.dropPrefix?_eq_some.2 rfl
    simp only [hinner, Text.splitAt?_eq_some.2 ⟨rfl, hn⟩, hp]
    rfl

theorem readEscape_cons_point {c d : CodePoint} (h : pointEscape? c = some d) :
    readEscape (c :: rest) = .ok (.point d, rest) := by
  simp only [readEscape, h]

theorem readEscape_point_iff {d : CodePoint} :
    readEscape t = .ok (.point d, rest) ↔ ∃ c, t = c :: rest ∧ pointEscape? c = some d := by
  constructor
  · intro h
    cases t with
    | nil => exact nomatch h
    | cons c t =>
        rw [readEscape] at h
        split at h
        · next e he =>
            cases h
            exact ⟨c, rfl, he⟩
        · split at h
          · cases hp : readProperty t <;> rw [hp] at h <;> exact nomatch h
          · split at h
            · cases hp : readProperty t <;> rw [hp] at h <;> exact nomatch h
            · split at h <;> exact nomatch h
  · rintro ⟨c, rfl, hc⟩
    exact readEscape_cons_point hc

theorem NamedSet.letter {c d : Char} (h : NamedSet c d s) {e : CodePoint} (he : e = c ∨ e = d) :
    pointEscape? e = none ∧ e ≠ 'p' ∧ e ≠ 'P' := by
  cases h <;> rcases he with rfl | rfl <;> decide

theorem readEscape_set (h : SetEscape t s) :
    ∃ p : CodePointSet, p.elements = s ∧ ∀ rest, readEscape (t ++ rest) = .ok (.set p, rest) := by
  have hread {e : CodePoint} {p : CodePointSet} (he : pointEscape? e = none ∧ e ≠ 'p' ∧ e ≠ 'P')
      (hp : setEscape? e = some p) (rest : Text) : readEscape (e :: rest) = .ok (.set p, rest) := by
    simp only [readEscape, he.1, if_neg he.2.1, if_neg he.2.2, hp]
  have hproperty {name : Text} {p : CodePointSet} (hp : propertySet? name = .ok p) (hn : ('}' : CodePoint) ∉ name)
      (rest : Text) : readProperty (('{' : CodePoint) :: (name ++ [('}' : CodePoint)]) ++ rest) = .ok (p, rest) :=
    readProperty_eq_ok.2 ⟨name, by simp, hn, hp⟩
  cases h with
  | named h =>
      obtain ⟨p, _, hs, hc, _⟩ := h.setEscape?
      exact ⟨p, hs, hread (h.letter (.inl rfl)) hc⟩
  | unnamed h =>
      obtain ⟨p, hp, hs, _, hd⟩ := h.setEscape?
      exact ⟨p.complement, by rw [elements_complement hp, hs], hread (h.letter (.inr rfl)) hd⟩
  | property h hn =>
      obtain ⟨p, hp, hs⟩ := propertySet?_complete h
      refine ⟨p, hs, fun rest => ?_⟩
      rw [List.cons_append, readEscape, hproperty hp hn]
      rfl
  | notProperty h hn =>
      obtain ⟨p, hp, hs⟩ := propertySet?_complete h
      refine ⟨p.complement, by rw [elements_complement (propertySet?_sound hp).1, hs], fun rest => ?_⟩
      rw [List.cons_append, readEscape, hproperty hp hn]
      rfl

theorem readEscape_set_sound (h : readEscape t = .ok (.set p, rest)) :
    p.IsProper ∧ ∃ u, t = u ++ rest ∧ SetEscape u p.elements := by
  cases t with
  | nil => exact nomatch h
  | cons c t =>
      rw [readEscape] at h
      split at h
      · exact nomatch h
      · split at h
        · next hc =>
            cases hp : readProperty t with
            | error f => rw [hp] at h; exact nomatch h
            | ok found =>
                rw [hp] at h
                cases h
                obtain ⟨name, rfl, hn, hname⟩ := readProperty_eq_ok.1 hp
                obtain ⟨hproper, hname⟩ := propertySet?_sound hname
                exact ⟨hproper, _, by simp [hc], .property hname hn⟩
        · split at h
          · next hc =>
              cases hp : readProperty t with
              | error f => rw [hp] at h; exact nomatch h
              | ok found =>
                  rw [hp] at h
                  cases h
                  obtain ⟨name, rfl, hn, hname⟩ := readProperty_eq_ok.1 hp
                  obtain ⟨hproper, hname⟩ := propertySet?_sound hname
                  rw [elements_complement hproper]
                  exact ⟨hproper.complement, _, by simp [hc], .notProperty hname hn⟩
          · split at h
            · next q hq =>
                cases h
                obtain ⟨a, b, s, hn, hproper, ⟨rfl, hs⟩ | ⟨rfl, hs⟩⟩ := exists_namedSet hq
                · exact ⟨hproper, [(a : CodePoint)], rfl, hs ▸ .named hn⟩
                · exact ⟨hproper, [(b : CodePoint)], rfl, hs ▸ .unnamed hn⟩
            · exact nomatch h

end Pattern

end XmlSchema
