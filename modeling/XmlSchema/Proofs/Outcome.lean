/-!
Steps that may fail. A step ends in a result or in an error; what is known of both for the parts of a step is known for
the whole.
-/

namespace XmlSchema

variable {ε α β : Type} {P : α → Prop} {Q : β → Prop} {E F : ε → Prop}

/-- A step ends in a result with one property or in an error with another one. -/
inductive Ends (P : α → Prop) (E : ε → Prop) : Except ε α → Prop
  | ok {a : α} (h : P a) : Ends P E (.ok a)
  | error {e : ε} (h : E e) : Ends P E (.error e)

namespace Ends

variable {x : Except ε α}

theorem mono {P' : α → Prop} (h : Ends P E x) (hP : ∀ a, P a → P' a) (hE : ∀ e, E e → F e) : Ends P' F x := by
  cases h with
  | ok h => exact .ok (hP _ h)
  | error h => exact .error (hE _ h)

theorem imp {P' : α → Prop} (h : Ends P E x) (hP : ∀ a, P a → P' a) : Ends P' E x := h.mono hP fun _ => id

/-- The result of a step is one that it ends in. -/
theorem known (h : Ends P E x) : Ends (fun a => x = .ok a ∧ P a) E x := by
  cases h with
  | ok h => exact .ok ⟨rfl, h⟩
  | error h => exact .error h

theorem bind {f : α → Except ε β} (hx : Ends P E x) (hf : ∀ a, P a → Ends Q E (f a)) : Ends Q E (x >>= f) := by
  cases hx with
  | ok h => exact hf _ h
  | error h => exact .error h

theorem ite {c : Prop} [Decidable c] {y : Except ε α} (hx : c → Ends P E x) (hy : ¬ c → Ends P E y) :
    Ends P E (if c then x else y) := by
  split
  · exact hx ‹_›
  · exact hy ‹_›

/-- A check that ends a step before the rest of it. -/
theorem guard {c : Prop} [Decidable c] {x : Except ε PUnit} {f : PUnit → Except ε β}
    (hx : c → Ends (fun _ => False) E x) (hf : ¬ c → Ends Q E (f ⟨⟩)) : Ends Q E (if c then x >>= f else f ⟨⟩) :=
  .ite (fun hc => (hx hc).bind fun _ h => h.elim) hf

theorem map {f : α → β} (hx : Ends P E x) (hf : ∀ a, P a → Q (f a)) : Ends Q E (x.map f) := by
  cases hx with
  | ok h => exact .ok (hf _ h)
  | error h => exact .error h

theorem mapM {f : α → Except ε β} {l : List α} (h : ∀ a ∈ l, Ends Q E (f a)) :
    Ends (fun bs => ∀ b ∈ bs, Q b) E (l.mapM f) := by
  induction l with
  | nil => exact .ok fun _ hb => nomatch hb
  | cons a l ih =>
      obtain ⟨ha, hl⟩ := List.forall_mem_cons.1 h
      rw [List.mapM_cons]
      exact ha.bind fun b hb => (ih hl).bind fun bs hbs => .ok (List.forall_mem_cons.2 ⟨hb, hbs⟩)

theorem foldlM {step : β → α → Except ε β} {l : List α} {b : β} (hb : Q b)
    (h : ∀ b, Q b → ∀ a ∈ l, Ends Q E (step b a)) : Ends Q E (l.foldlM step b) := by
  induction l generalizing b with
  | nil => exact .ok hb
  | cons a l ih =>
      rw [List.foldlM_cons]
      exact (h b hb a List.mem_cons_self).bind fun b hb => ih hb fun b hb a ha => h b hb a (List.mem_cons_of_mem _ ha)

/-- A loop of checks. -/
theorem forIn {check : α → Except ε (ForInStep PUnit)} {l : List α}
    (h : ∀ a ∈ l, Ends (· = .yield ⟨⟩) E (check a)) :
    Ends (fun _ => True) E (forIn l PUnit.unit fun a _ => check a) := by
  induction l with
  | nil => exact .ok trivial
  | cons a l ih =>
      obtain ⟨ha, hl⟩ := List.forall_mem_cons.1 h
      rw [List.forIn_cons]
      refine ha.bind fun _ hstep => ?_
      rw [hstep]
      exact ih hl

end Ends

end XmlSchema
