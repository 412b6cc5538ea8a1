import XmlSchema.Proofs.Pattern.Escapes
import XmlSchema.Proofs.Pattern.Grammar

/-!
The dialect of the schema language: what stands for one code point in a pattern as it is written, classes with members,
negation and subtraction included.
-/

namespace XmlSchema.Pattern

/-- What stands for one code point in a class. -/
inductive PointText : Text → CodePoint → Prop
  | literal {c : CodePoint} (h : c ≠ '\\') (h' : c ≠ '[') : PointText [c] c
  | escaped {c d : CodePoint} (h : pointEscape? c = some d) : PointText ['\\', c] d

/-- A member of a class, the set that it adds, and what may follow it. Behind a point no hyphen can be read as the
middle of a range, and a range ends with no bracket. -/
inductive Member : Text → Set CodePoint → Text → Prop
  | point {t rest : Text} {c : CodePoint} (h : PointText t c) (hr : rangeFollows rest = false) : Member t {c} rest
  | range {t t' rest : Text} {lo hi : CodePoint} (h : PointText t lo) (h' : PointText t' hi)
      (hb : t'.head? ≠ some (']' : CodePoint)) (hle : lo.val ≤ hi.val) :
      Member (t ++ ('-' : CodePoint) :: t') {c | lo.val ≤ c.val ∧ c.val ≤ hi.val} rest
  | set {t rest : Text} {s : Set CodePoint} (h : SetEscape t s) : Member ('\\' :: t) s rest

def circumflex (negated : Bool) : Text := if negated then ['^'] else []

def kept (negated : Bool) (s : Set CodePoint) : Set CodePoint := if negated then sᶜ else s

/-- A text that is not negated starts with no circumflex. -/
def Unmarked (negated : Bool) (t : Text) : Prop := negated = false → t.head? ≠ some ('^' : CodePoint)

/-- The text starts neither with the closing bracket of a class nor with a class to take away. -/
def GoesOn (t : Text) : Prop :=
  t.head? ≠ some (']' : CodePoint) ∧ ∀ u, t ≠ ('-' : CodePoint) :: ('[' : CodePoint) :: u

/-- A text with the closing bracket of a class at its end, the members of the class in it, and the class that is taken
away from it. In front a closing bracket is a member, and a hyphen and an opening bracket are no class to take away. -/
inductive Members : (first : Bool) → Text → Set CodePoint → Set CodePoint → Prop
  | close : Members false [']'] ∅ ∅
  | subtract {t : Text} {s removed : Set CodePoint} (negated : Bool) (h : Members true t s removed)
      (hn : Unmarked negated t) :
      Members false ('-' :: '[' :: (circumflex negated ++ t ++ [(']' : CodePoint)])) ∅ (kept negated s \ removed)
  | more {first : Bool} {t t' : Text} {s s' removed : Set CodePoint}
      (hfirst : first = false → GoesOn (t ++ t')) (h : Member t s t') (h' : Members false t' s' removed) :
      Members first (t ++ t') (s ∪ s') removed

/-- A class behind its opening bracket: its members, or all but its members behind a circumflex, without those of the
class that is taken away. -/
inductive ClassBody : Text → Set CodePoint → Prop
  | intro {t : Text} {s removed : Set CodePoint} (negated : Bool) (h : Members true t s removed)
      (hn : Unmarked negated t) : ClassBody (circumflex negated ++ t) (kept negated s \ removed)

def metacharacters : Text := ['.', '\\', '?', '*', '+', '{', '(', ')', '|', '[']

/-- What stands for one code point in a pattern. -/
inductive Leaf : Text → Set CodePoint → Prop
  | literal {c : CodePoint} (h : c ∉ metacharacters) : Leaf [c] {c}
  | any : Leaf ['.'] {c | c ≠ '\n' ∧ c ≠ '\r'}
  | point {c d : CodePoint} (h : pointEscape? c = some d) : Leaf ['\\', c] {d}
  | set {t : Text} {s : Set CodePoint} (h : SetEscape t s) : Leaf ('\\' :: t) s
  | bracketed {t : Text} {s : Set CodePoint} (h : ClassBody t s) : Leaf ('[' :: t) s

variable {t t' rest rest' : Text} {s s' removed removed' : Set CodePoint}

/-! ### Unique reading -/

theorem PointText.readMember {c : CodePoint} (h : PointText t c) (rest : Text) :
    Pattern.readMember (t ++ rest) = .ok (.point c, rest) := by
  cases h with
  | literal h h' =>
      rw [List.singleton_append, Pattern.readMember, if_neg h, if_neg h']
  | escaped h =>
      rw [List.cons_append, Pattern.readMember, if_pos rfl]
      exact readEscape_cons_point h

theorem SetEscape.readMember (h : SetEscape t s) :
    ∃ p, ∀ rest, Pattern.readMember (('\\' : CodePoint) :: t ++ rest) = .ok (.set p, rest) := by
  obtain ⟨p, _, hp⟩ := readEscape_set h
  exact ⟨p, fun rest => by rw [List.cons_append, Pattern.readMember, if_pos rfl, hp]⟩

theorem PointText.unique {c c' : CodePoint} (h : PointText t c) (h' : PointText t' c')
    (he : t ++ rest = t' ++ rest') : t = t' ∧ c = c' ∧ rest = rest' := by
  have hread := h.readMember rest
  rw [he, h'.readMember rest'] at hread
  cases hread
  exact ⟨List.append_cancel_right he, rfl, rfl⟩

theorem SetEscape.unique (h : SetEscape t s) (h' : SetEscape t' s') (he : t ++ rest = t' ++ rest') :
    t = t' ∧ s = s' := by
  obtain ⟨p, rfl, hp⟩ := readEscape_set h
  obtain ⟨p', rfl, hp'⟩ := readEscape_set h'
  have hread := hp rest
  rw [he, hp'] at hread
  cases hread
  exact ⟨List.append_cancel_right he, rfl⟩

theorem PointText.ne_set {c : CodePoint} (h : PointText t c) (h' : SetEscape t' s') :
    t ++ rest ≠ ('\\' : CodePoint) :: t' ++ rest' := by
  intro he
  obtain ⟨p, hp⟩ := h'.readMember
  have hread := hp rest'
  rw [← he, h.readMember rest] at hread
  exact nomatch hread

theorem PointText.head_ne {c : CodePoint} (h : PointText t c) : t.head? ≠ some ('[' : CodePoint) := by
  cases h with
  | literal _ h' => simpa using h'
  | escaped _ => exact fun he => absurd (Option.some.inj he) (by decide)

theorem PointText.ne_nil {c : CodePoint} (h : PointText t c) : t ≠ [] := by
  cases h <;> exact List.cons_ne_nil _ _

/-- Behind a point, a hyphen and a point that is no closing bracket a range is read. -/
theorem PointText.rangeFollows {c : CodePoint} (h : PointText t c) (hb : t.head? ≠ some (']' : CodePoint))
    (rest : Text) : Pattern.rangeFollows (('-' : CodePoint) :: t ++ rest) = true := by
  have hne := h.head_ne
  cases t with
  | nil => exact absurd rfl h.ne_nil
  | cons d t =>
      simp only [List.head?_cons, ne_eq, Option.some.injEq] at hb hne
      simp [Pattern.rangeFollows, hb, hne]

theorem Member.unique (h : Member t s rest) (h' : Member t' s' rest') (he : t ++ rest = t' ++ rest') :
    t = t' ∧ s = s' := by
  cases h with
  | point h hr =>
      cases h' with
      | point h' _ =>
          obtain ⟨rfl, rfl, -⟩ := h.unique h' he
          exact ⟨rfl, rfl⟩
      | range h' h₂ hb _ =>
          rw [List.append_assoc] at he
          obtain ⟨rfl, rfl, rfl⟩ := h.unique h' he
          exact absurd (h₂.rangeFollows hb rest') (Bool.eq_false_iff.1 hr)
      | set h' => exact absurd he (h.ne_set h')
  | range h h₂ hb hle =>
      rw [List.append_assoc] at he
      cases h' with
      | point h' hr =>
          obtain ⟨rfl, rfl, rfl⟩ := h.unique h' he
          exact absurd (h₂.rangeFollows hb rest) (Bool.eq_false_iff.1 hr)
      | range h' h₂' _ _ =>
          rw [List.append_assoc] at he
          obtain ⟨rfl, rfl, he⟩ := h.unique h' he
          obtain ⟨rfl, rfl, -⟩ := h₂.unique h₂' (List.tail_eq_of_cons_eq he)
          exact ⟨rfl, rfl⟩
      | set h' => exact absurd he (h.ne_set h')
  | set h =>
      cases h' with
      | point h' _ => exact absurd he.symm (h'.ne_set h)
      | range h' _ _ _ =>
          rw [List.append_assoc] at he
          exact absurd he.symm (h'.ne_set h)
      | set h' =>
          obtain ⟨rfl, rfl⟩ := h.unique h' (List.tail_eq_of_cons_eq he)
          exact ⟨rfl, rfl⟩

theorem Member.ne_nil (h : Member t s rest) : t ≠ [] := by
  cases h with
  | point h _ => exact h.ne_nil
  | range _ _ _ _ => simp
  | set _ => exact List.cons_ne_nil _ _

theorem Members.ne_nil {first : Bool} (h : Members first t s removed) : t ≠ [] := by
  cases h with
  | close | subtract => exact List.cons_ne_nil _ _
  | more _ h _ => simp [h.ne_nil]

theorem eq_of_circumflex {negated negated' : Bool} (hn : Unmarked negated t) (hn' : Unmarked negated' t')
    (ht : t ≠ []) (ht' : t' ≠ []) (he : circumflex negated ++ (t ++ rest) = circumflex negated' ++ (t' ++ rest')) :
    negated = negated' ∧ t ++ rest = t' ++ rest' := by
  have hhead {u v w : Text} (hu : u ≠ []) (he : u ++ v = ('^' : CodePoint) :: w) :
      u.head? = some ('^' : CodePoint) := by
    cases u with
    | nil => exact absurd rfl hu
    | cons c u => exact congrArg some (List.head_eq_of_cons_eq he)
  cases negated with
  | false =>
      cases negated' with
      | false => exact ⟨rfl, he⟩
      | true => exact absurd (hhead ht he) (hn rfl)
  | true =>
      cases negated' with
      | false => exact absurd (hhead ht' he.symm) (hn' rfl)
      | true => exact ⟨rfl, List.tail_eq_of_cons_eq he⟩

theorem Members.two_le {first : Bool} (h : Member t s t') (h' : Members first t' s' removed) :
    2 ≤ (t ++ t').length := by
  have := List.length_pos_iff.2 h.ne_nil
  have := List.length_pos_iff.2 h'.ne_nil
  rw [List.length_append]
  omega

theorem GoesOn.append (h : GoesOn t) (hl : 2 ≤ t.length) (rest : Text) : GoesOn (t ++ rest) := by
  obtain ⟨c, d, u, rfl⟩ : ∃ c d u, t = c :: d :: u := by
    match t, hl with
    | c :: d :: u, _ => exact ⟨c, d, u, rfl⟩
  refine ⟨h.1, fun v he => h.2 u ?_⟩
  simp only [List.cons_append, List.cons.injEq] at he
  rw [he.1, he.2.1]

theorem rangeFollows_append (hl : 2 ≤ t.length) (rest : Text) : rangeFollows (t ++ rest) = rangeFollows t := by
  match t, hl with
  | c :: d :: u, _ => rfl

/-- Whether a range goes on is told by the class alone. -/
theorem Members.rangeFollows_append {first : Bool} (h : Members first t s removed) (rest : Text) :
    rangeFollows (t ++ rest) = rangeFollows t := by
  cases h with
  | close => cases rest <;> rfl
  | subtract => rfl
  | more _ h h' => exact Pattern.rangeFollows_append (two_le h h') rest

/-- A member is one whatever stands behind the class. -/
theorem Member.append {first : Bool} (h : Member t s t') (h' : Members first t' s' removed) (rest : Text) :
    Member t s (t' ++ rest) := by
  cases h with
  | point h hr => exact .point h ((h'.rangeFollows_append rest).trans hr)
  | range h h' hb hle => exact .range h h' hb hle
  | set h => exact .set h

theorem Members.unique {first : Bool} (h : Members first t s removed) (h' : Members first t' s' removed')
    (he : t ++ rest = t' ++ rest') : t = t' ∧ s = s' ∧ removed = removed' := by
  have hsubtract (u v : Text) : ¬ GoesOn (('-' : CodePoint) :: ('[' : CodePoint) :: u ++ v) := fun h => h.2 _ rfl
  have hclose (v : Text) : ¬ GoesOn ([(']' : CodePoint)] ++ v) := fun h => h.1 rfl
  induction h generalizing t' s' removed' rest rest' with
  | close =>
      cases h' with
      | close => exact ⟨rfl, rfl, rfl⟩
      | subtract _ _ _ => exact absurd (List.head_eq_of_cons_eq he) (by decide)
      | more hfirst h h₂ => exact absurd (he ▸ (hfirst rfl).append (two_le h h₂) rest') (hclose rest)
  | subtract negated h hn ih =>
      cases h' with
      | close => exact absurd (List.head_eq_of_cons_eq he) (by decide)
      | subtract negated' h' hn' =>
          simp only [List.cons_append, List.append_assoc, List.cons.injEq, true_and] at he
          obtain ⟨rfl, hmembers⟩ := eq_of_circumflex hn hn' h.ne_nil h'.ne_nil he
          obtain ⟨rfl, rfl, rfl⟩ := ih h' hmembers
          exact ⟨rfl, rfl, rfl⟩
      | more hfirst h h₂ => exact absurd (he ▸ (hfirst rfl).append (two_le h h₂) rest') (hsubtract _ rest)
  | more hfirst h h₂ ih =>
      cases h' with
      | close => exact absurd (he ▸ (hfirst rfl).append (two_le h h₂) rest) (hclose rest')
      | subtract negated' _ _ => exact absurd (he ▸ (hfirst rfl).append (two_le h h₂) rest) (hsubtract _ rest')
      | more hfirst' h' h₂' =>
          rw [List.append_assoc, List.append_assoc] at he
          obtain ⟨rfl, rfl⟩ := (h.append h₂ rest).unique (h'.append h₂' rest') he
          obtain ⟨rfl, rfl, rfl⟩ := ih h₂' (List.append_cancel_left he)
          exact ⟨rfl, rfl, rfl⟩

theorem ClassBody.unique (h : ClassBody t s) (h' : ClassBody t' s') (he : t ++ rest = t' ++ rest') :
    t = t' ∧ s = s' := by
  cases h with
  | intro negated h hn =>
      cases h' with
      | intro negated' h' hn' =>
          rw [List.append_assoc, List.append_assoc] at he
          obtain ⟨rfl, hmembers⟩ := eq_of_circumflex hn hn' h.ne_nil h'.ne_nil he
          obtain ⟨rfl, rfl, rfl⟩ := h.unique h' hmembers
          exact ⟨rfl, rfl⟩

theorem Leaf.unique (h : Leaf t s) (h' : Leaf t' s') (he : t ++ rest = t' ++ rest') : t = t' ∧ s = s' := by
  have hmark {c d : CodePoint} {u v : Text} (hc : c ∉ metacharacters) (hd : d ∈ metacharacters) : c :: u ≠ d :: v :=
    fun he => hc (List.head_eq_of_cons_eq he ▸ hd)
  cases h with
  | literal h =>
      cases h' with
      | literal h' =>
          obtain ⟨rfl, -⟩ := List.cons.inj he
          exact ⟨rfl, rfl⟩
      | any | point | set | bracketed => exact absurd he (hmark h (by decide))
  | any =>
      cases h' with
      | literal h' => exact absurd he.symm (hmark h' (by decide))
      | any => exact ⟨rfl, rfl⟩
      | point | set | bracketed => exact absurd (List.head_eq_of_cons_eq he) (by decide)
  | point h =>
      cases h' with
      | literal h' => exact absurd he.symm (hmark h' (by decide))
      | any | bracketed => exact absurd (List.head_eq_of_cons_eq he) (by decide)
      | point h' =>
          obtain ⟨rfl, -⟩ := List.cons.inj (List.tail_eq_of_cons_eq he)
          obtain rfl := Option.some.inj (h.symm.trans h')
          exact ⟨rfl, rfl⟩
      | set h' => exact absurd he ((PointText.escaped h).ne_set h')
  | set h =>
      cases h' with
      | literal h' => exact absurd he.symm (hmark h' (by decide))
      | any | bracketed => exact absurd (List.head_eq_of_cons_eq he) (by decide)
      | point h' => exact absurd he.symm ((PointText.escaped h').ne_set h)
      | set h' =>
          obtain ⟨rfl, rfl⟩ := h.unique h' (List.tail_eq_of_cons_eq he)
          exact ⟨rfl, rfl⟩
  | bracketed h =>
      cases h' with
      | literal h' => exact absurd he.symm (hmark h' (by decide))
      | any | point | set => exact absurd (List.head_eq_of_cons_eq he) (by decide)
      | bracketed h' =>
          obtain ⟨rfl, rfl⟩ := h.unique h' (List.tail_eq_of_cons_eq he)
          exact ⟨rfl, rfl⟩

theorem Leaf.head (h : Leaf t s) :
    ∃ c u, t = c :: u ∧ c ≠ '(' ∧ c ∉ quantifierMarks ∧ c ∉ branchEnds := by
  cases h with
  | @literal c h =>
      refine ⟨c, [], rfl, ?_⟩
      simp only [metacharacters, quantifierMarks, branchEnds, List.mem_cons, List.not_mem_nil] at h ⊢
      tauto
  | any | point | set | bracketed => exact ⟨_, _, rfl, by decide⟩

/-- The dialect of the schema language. -/
def schemaDialect : Dialect where
  opening := ['(']
  Leaf := Leaf
  opening_head := rfl
  leaf_head h := by
    obtain ⟨c, u, ht, _, hc⟩ := h.head
    exact ⟨c, u, ht, hc⟩
  leaf_opening h he := by
    obtain ⟨c, u, rfl, hc, _⟩ := h.head
    exact hc (List.head_eq_of_cons_eq he)
  leaf_unique := Leaf.unique

end XmlSchema.Pattern
