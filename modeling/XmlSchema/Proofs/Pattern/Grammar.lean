import Mathlib
import XmlSchema.Occurrence
import XmlSchema.Proofs.Text.Paths
import XmlSchema.Text.Blank

/-!
What regular expressions say, for dialects that differ in how a group is opened and in what stands for one code point.
The main statement is that such a text can be read in one way only.
-/

namespace XmlSchema.Pattern

/-- The words of one code point of a set. -/
def single (s : Set CodePoint) : Language CodePoint := {w | ∃ c ∈ s, w = [c]}

/-- The words put together from an allowed number of words of a language. -/
def copies (o : Occurs) (l : Language CodePoint) : Language CodePoint := {w | ∃ k, o.allows k ∧ w ∈ l ^ k}

theorem mem_single_pow {s : Set CodePoint} {k : Nat} {w : List CodePoint} :
    w ∈ single s ^ k ↔ w.length = k ∧ ∀ c ∈ w, c ∈ s := by
  induction k generalizing w with
  | zero =>
      rw [pow_zero, Language.mem_one, List.length_eq_zero_iff, iff_self_and]
      rintro rfl _ hc
      exact nomatch hc
  | succ k ih =>
      rw [pow_succ', Language.mem_mul]
      constructor
      · rintro ⟨_, ⟨c, hc, rfl⟩, w, hw, rfl⟩
        obtain ⟨rfl, hmem⟩ := ih.1 hw
        exact ⟨rfl, List.forall_mem_cons.2 ⟨hc, hmem⟩⟩
      · rintro ⟨hlength, hmem⟩
        obtain ⟨c, w, rfl⟩ := List.exists_cons_of_length_eq_add_one hlength
        obtain ⟨hc, hmem⟩ := List.forall_mem_cons.1 hmem
        exact ⟨[c], ⟨c, hc, rfl⟩, w, ih.2 ⟨Nat.succ.inj hlength, hmem⟩, rfl⟩

theorem mem_copies_single {o : Occurs} {s : Set CodePoint} {w : List CodePoint} :
    w ∈ copies o (single s) ↔ o.allows w.length ∧ ∀ c ∈ w, c ∈ s := by
  constructor
  · rintro ⟨k, hk, hw⟩
    obtain ⟨rfl, hmem⟩ := mem_single_pow.1 hw
    exact ⟨hk, hmem⟩
  · rintro ⟨hlength, hmem⟩
    exact ⟨w.length, hlength, mem_single_pow.2 ⟨rfl, hmem⟩⟩

def IsNumeral (t : Text) : Prop := t ≠ [] ∧ ∀ c ∈ t, c.isAsciiDigit = true

/-- What stands between the braces of a quantifier. -/
inductive Bounds : Text → Occurs → Prop
  | exactly {t : Text} (h : IsNumeral t) : Bounds t ⟨Text.digitsValue t, some (Text.digitsValue t)⟩
  | atLeast {t : Text} (h : IsNumeral t) : Bounds (t ++ [(',' : CodePoint)]) ⟨Text.digitsValue t, none⟩
  | between {t t' : Text} (h : IsNumeral t) (h' : IsNumeral t') (hle : Text.digitsValue t ≤ Text.digitsValue t') :
      Bounds (t ++ (',' : CodePoint) :: t') ⟨Text.digitsValue t, some (Text.digitsValue t')⟩

inductive Quantity : Text → Occurs → Prop
  | optional : Quantity ['?'] ⟨0, some 1⟩
  | star : Quantity ['*'] ⟨0, none⟩
  | plus : Quantity ['+'] ⟨1, none⟩
  | counted {body : Text} {o : Occurs} (h : Bounds body o) : Quantity ('{' :: (body ++ [('}' : CodePoint)])) o

/-- The marks that a quantifier starts with. -/
def quantifierMarks : Text := ['?', '*', '+', '{']

/-- The marks behind which a branch has come to its end. -/
def branchEnds : Text := ['|', ')']

/-- How a group is opened, and which texts stand for one code point of which sets. Such a text starts with none of the
marks, cannot be taken for the opening of a group, and is recognised whatever follows it. -/
structure Dialect where
  opening : Text
  Leaf : Text → Set CodePoint → Prop
  opening_head : opening.head? = some ('(' : CodePoint)
  leaf_head {t : Text} {s : Set CodePoint} (h : Leaf t s) :
    ∃ c u, t = c :: u ∧ c ∉ quantifierMarks ∧ c ∉ branchEnds
  leaf_opening {t rest rest' : Text} {s : Set CodePoint} (h : Leaf t s) : t ++ rest ≠ opening ++ rest'
  leaf_unique {t t' rest rest' : Text} {s s' : Set CodePoint} (h : Leaf t s) (h' : Leaf t' s')
    (he : t ++ rest = t' ++ rest') : t = t' ∧ s = s'

/-- The parts that a regular expression is made of. -/
inductive Construct where
  | branches
  | branch
  | piece
  | atom

/-- A text is a part of a regular expression and stands for a language. -/
inductive Denotes (D : Dialect) : Construct → Text → Language CodePoint → Prop
  | last {t : Text} {l : Language CodePoint} (h : Denotes D .branch t l) : Denotes D .branches t l
  | alternative {t t' : Text} {l l' : Language CodePoint} (h : Denotes D .branch t l) (h' : Denotes D .branches t' l') :
      Denotes D .branches (t ++ ('|' : CodePoint) :: t') (l + l')
  | empty : Denotes D .branch [] 1
  | piece {t t' : Text} {l l' : Language CodePoint} (h : Denotes D .piece t l) (h' : Denotes D .branch t' l') :
      Denotes D .branch (t ++ t') (l * l')
  | once {t : Text} {l : Language CodePoint} (h : Denotes D .atom t l) : Denotes D .piece t l
  | repeated {t q : Text} {l : Language CodePoint} {o : Occurs} (h : Denotes D .atom t l) (hq : Quantity q o) :
      Denotes D .piece (t ++ q) (copies o l)
  | group {t : Text} {l : Language CodePoint} (h : Denotes D .branches t l) :
      Denotes D .atom (D.opening ++ t ++ [(')' : CodePoint)]) l
  | leaf {t : Text} {s : Set CodePoint} (h : D.Leaf t s) : Denotes D .atom t (single s)

section

variable {t t' rest rest' : Text}

theorem IsNumeral.notMem (h : IsNumeral t) {c : CodePoint} (hc : c.isAsciiDigit = false) : c ∉ t := fun hm => by
  rw [h.2 c hm] at hc
  exact nomatch hc

theorem Bounds.brace_notMem {o : Occurs} (h : Bounds t o) : ('}' : CodePoint) ∉ t := by
  cases h with
  | exactly h => exact h.notMem rfl
  | atLeast h => simpa using ⟨h.notMem rfl, by decide⟩
  | between h h' _ => simpa using ⟨h.notMem rfl, by decide, h'.notMem rfl⟩

theorem Bounds.unique {o o' : Occurs} (h : Bounds t o) (h' : Bounds t o') : o = o' := by
  have hcomma {u : Text} (hu : IsNumeral u) : (',' : CodePoint) ∉ u := hu.notMem rfl
  cases h with
  | exactly h =>
      generalize ht : t = t' at h'
      cases h' with
      | exactly h' => cases ht; rfl
      | atLeast h' => exact absurd (by simp [ht]) (hcomma h)
      | between h' _ _ => exact absurd (by simp [ht]) (hcomma h)
  | atLeast h =>
      generalize ht : _ ++ [(',' : CodePoint)] = t' at h'
      cases h' with
      | exactly h' => exact absurd (by simp [← ht]) (hcomma h')
      | atLeast h' =>
          obtain ⟨rfl, -⟩ := Text.eq_of_append_cons (hcomma h) (hcomma h') ht
          rfl
      | between h' h'' _ =>
          obtain ⟨-, he⟩ := Text.eq_of_append_cons (hcomma h) (hcomma h') ht
          exact absurd he.symm h''.1
  | between h h₂ _ =>
      generalize ht : _ ++ (',' : CodePoint) :: _ = t' at h'
      cases h' with
      | exactly h' => exact absurd (by simp [← ht]) (hcomma h')
      | atLeast h' =>
          obtain ⟨-, he⟩ := Text.eq_of_append_cons (hcomma h) (hcomma h') ht
          exact absurd he h₂.1
      | between h' _ _ =>
          obtain ⟨rfl, rfl⟩ := Text.eq_of_append_cons (hcomma h) (hcomma h') ht
          rfl

theorem Quantity.head {o : Occurs} (h : Quantity t o) : ∃ c u, t = c :: u ∧ c ∈ quantifierMarks := by
  cases h <;> exact ⟨_, _, rfl, by decide⟩

theorem Quantity.unique {o o' : Occurs} (h : Quantity t o) (h' : Quantity t' o') (he : t ++ rest = t' ++ rest') :
    t = t' ∧ o = o' := by
  cases h with
  | optional | star | plus =>
      cases h' <;> first | exact ⟨rfl, rfl⟩ | exact absurd (List.head_eq_of_cons_eq he) (by decide)
  | counted h =>
      cases h' with
      | optional | star | plus => exact absurd (List.head_eq_of_cons_eq he) (by decide)
      | counted h' =>
          simp only [List.cons_append, List.append_assoc, List.cons.injEq, true_and] at he
          obtain ⟨rfl, -⟩ := Text.eq_of_append_cons h.brace_notMem h'.brace_notMem he
          exact ⟨rfl, h.unique h'⟩

end

/-! ### Unique reading -/

/-- What may follow a part without going on with it. -/
def Construct.Stops : Construct → Text → Prop
  | atom, _ => True
  | piece, rest => ∀ c ∈ rest.head?, c ∉ quantifierMarks
  | branch, rest => ∀ c ∈ rest.head?, c ∈ branchEnds
  | branches, rest => ∀ c ∈ rest.head?, c = ')'

namespace Denotes

variable {D : Dialect} {t t' rest rest' : Text} {l l' : Language CodePoint}

theorem head_atom (h : Denotes D .atom t l) : ∃ c u, t = c :: u ∧ c ∉ quantifierMarks ∧ c ∉ branchEnds := by
  cases h with
  | leaf h => exact D.leaf_head h
  | group h =>
      have ho := D.opening_head
      cases hc : D.opening with
      | nil => rw [hc] at ho; exact nomatch ho
      | cons c u =>
          rw [hc] at ho
          obtain rfl := Option.some.inj ho
          exact ⟨_, _, rfl, by decide, by decide⟩

theorem head_piece (h : Denotes D .piece t l) : ∃ c u, t = c :: u ∧ c ∉ quantifierMarks ∧ c ∉ branchEnds := by
  cases h with
  | once h => exact h.head_atom
  | repeated h hq =>
      obtain ⟨c, u, rfl, hc⟩ := h.head_atom
      exact ⟨c, _, rfl, hc⟩

theorem stops_piece (h : Denotes D .branch t l) (hr : Construct.branch.Stops rest) :
    Construct.piece.Stops (t ++ rest) := by
  cases h with
  | empty =>
      intro c hc
      have := hr c hc
      simp only [branchEnds, List.mem_cons, List.not_mem_nil, or_false] at this
      rcases this with rfl | rfl <;> decide
  | piece h _ =>
      obtain ⟨c, u, rfl, hc, -⟩ := h.head_piece
      rintro _ ⟨⟩
      exact hc

/-- A part of a regular expression ends where it must, and stands for one language. -/
theorem unique {k : Construct} (h : Denotes D k t l) (h' : Denotes D k t' l') (hr : k.Stops rest) (hr' : k.Stops rest')
    (he : t ++ rest = t' ++ rest') : t = t' ∧ l = l' := by
  have hends (u : Text) : Construct.branch.Stops ('|' :: u) := by rintro _ ⟨⟩; decide
  have hclosed (u : Text) (hu : Construct.branches.Stops u) : Construct.branch.Stops u := by
    intro c hc
    rw [hu c hc]
    decide
  induction h generalizing t' l' rest rest' with
  | last h ih =>
      cases h' with
      | last h' => exact ih h' (hclosed _ hr) (hclosed _ hr') he
      | alternative h' _ =>
          rw [List.append_assoc] at he
          obtain ⟨rfl, -⟩ := ih h' (hclosed _ hr) (hends _) he
          rw [List.append_cancel_left he] at hr
          exact absurd (hr _ rfl) (by decide)
  | alternative h _ ih ih₂ =>
      rw [List.append_assoc] at he
      cases h' with
      | last h' =>
          obtain ⟨rfl, -⟩ := ih h' (hends _) (hclosed _ hr') he
          rw [← List.append_cancel_left he] at hr'
          exact absurd (hr' _ rfl) (by decide)
      | alternative h' h₂' =>
          rw [List.append_assoc] at he
          obtain ⟨rfl, rfl⟩ := ih h' (hends _) (hends _) he
          obtain ⟨rfl, rfl⟩ := ih₂ h₂' hr hr' (List.tail_eq_of_cons_eq (List.append_cancel_left he))
          exact ⟨rfl, rfl⟩
  | empty =>
      cases h' with
      | empty => exact ⟨rfl, rfl⟩
      | piece h' _ =>
          obtain ⟨c, u, rfl, -, hc⟩ := h'.head_piece
          rw [List.nil_append] at he
          rw [he] at hr
          exact absurd (hr c rfl) hc
  | piece h h₂ ih ih₂ =>
      cases h' with
      | empty =>
          obtain ⟨c, u, rfl, -, hc⟩ := h.head_piece
          rw [List.nil_append] at he
          rw [← he] at hr'
          exact absurd (hr' c rfl) hc
      | piece h' h₂' =>
          rw [List.append_assoc, List.append_assoc] at he
          obtain ⟨rfl, rfl⟩ := ih h' (h₂.stops_piece hr) (h₂'.stops_piece hr') he
          obtain ⟨rfl, rfl⟩ := ih₂ h₂' hr hr' (List.append_cancel_left he)
          exact ⟨rfl, rfl⟩
  | once h ih =>
      cases h' with
      | once h' => exact ih h' trivial trivial he
      | repeated h' hq =>
          rw [List.append_assoc] at he
          obtain ⟨rfl, -⟩ := ih h' trivial trivial he
          obtain ⟨c, u, rfl, hc⟩ := hq.head
          rw [List.append_cancel_left he] at hr
          exact absurd hc (hr c rfl)
  | repeated h hq ih =>
      rw [List.append_assoc] at he
      cases h' with
      | once h' =>
          obtain ⟨rfl, -⟩ := ih h' trivial trivial he
          obtain ⟨c, u, rfl, hc⟩ := hq.head
          rw [← List.append_cancel_left he] at hr'
          exact absurd hc (hr' c rfl)
      | repeated h' hq' =>
          rw [List.append_assoc] at he
          obtain ⟨rfl, rfl⟩ := ih h' trivial trivial he
          obtain ⟨rfl, rfl⟩ := hq.unique hq' (List.append_cancel_left he)
          exact ⟨rfl, rfl⟩
  | group h ih =>
      cases h' with
      | group h' =>
          simp only [List.append_assoc, List.append_cancel_left_eq] at he
          have hclose (u : Text) : Construct.branches.Stops (')' :: u) := by rintro _ ⟨⟩; rfl
          obtain ⟨rfl, rfl⟩ := ih h' (hclose _) (hclose _) he
          exact ⟨rfl, rfl⟩
      | leaf h' =>
          rw [List.append_assoc, List.append_assoc] at he
          exact absurd he.symm (D.leaf_opening h')
  | leaf h =>
      cases h' with
      | group h' =>
          rw [List.append_assoc, List.append_assoc] at he
          exact absurd he (D.leaf_opening h)
      | leaf h' =>
          obtain ⟨rfl, rfl⟩ := D.leaf_unique h h' he
          exact ⟨rfl, rfl⟩

/-- A text that is a regular expression stands for one language. -/
theorem iff_eq (h : Denotes D .branches t l) : Denotes D .branches t l' ↔ l' = l := by
  have hstop : Construct.branches.Stops [] := fun _ h => nomatch h
  constructor
  · intro h'
    exact (h'.unique h hstop hstop rfl).2
  · rintro rfl
    exact h

end Denotes

end XmlSchema.Pattern
