import XmlSchema.Proofs.Value.Equality
import XmlSchema.SimpleType.Check

/-!
Texts with the same value. Two texts are the same value of a type if they denote the same: a point of the value space, or
themselves if the type is not atomic or cannot read them. So being the same is symmetric and transitive, and holds of a
text and itself unless the text is the number that is none, or has more digits than arithmetic allows.
-/

namespace XmlSchema

namespace Double

theorem ofQuotient_ne_nan (negative : Bool) (n d : Nat) : ofQuotient negative n d ≠ nan := by
  simp only [ofQuotient]
  split_ifs <;> exact nofun

theorem ofDecimal_ne_nan (negative : Bool) (n : Nat) (e : Int) : ofDecimal negative n e ≠ nan := by
  rw [ofDecimal]
  split
  · exact nofun
  split
  · exact nofun
  split
  · exact nofun
  split <;> exact ofQuotient_ne_nan _ _ _

end Double

theorem Lexical.readDouble_eq_nan_iff {t : Text} : readDouble t = .ok .nan ↔ t = "NaN" := by
  rw [readDouble]
  split
  · next h => exact ⟨fun _ => h, fun _ => rfl⟩
  next hnan =>
  refine ⟨fun h => ?_, fun h => absurd h hnan⟩
  split at h
  · exact nomatch h
  split at h
  · exact nomatch h
  split at h
  · next d hd =>
      obtain ⟨parts, _, rfl⟩ := Option.map_eq_some_iff.1 hd
      exact absurd (Except.ok.inj h) (Double.ofDecimal_ne_nan _ _ _)
  · exact nomatch h

theorem Value.read_eq_nan_iff {p : Primitive} {t : Text} :
    Value.read p t = .ok (.double .nan) ↔ (p = .float ∨ p = .double) ∧ t = "NaN" := by
  have hother {α : Type} {x : Except LexicalError α} {f : α → Value} (hf : ∀ a, f a ≠ .double .nan) :
      x.map f ≠ .ok (.double .nan) := by
    cases x with
    | error e => exact nofun
    | ok a => exact fun h => hf a (Except.ok.inj h)
  have hdouble : (Lexical.readDouble t).map Value.double = .ok (.double .nan) ↔ t = "NaN" := by
    rw [← Lexical.readDouble_eq_nan_iff]
    cases Lexical.readDouble t with
    | error e => exact ⟨nofun, nofun⟩
    | ok x => simp [Except.map]
  cases p with
  | float | double => simpa [Value.read] using hdouble
  | anySimpleType | string | anyURI => simp [Value.read]
  | _ => simpa [Value.read] using hother (fun _ => by simp)

namespace SimpleType

variable {t : SimpleType} {a b c text : Text}

/-- The text is that of the number that is none. -/
def IsNaN (t : SimpleType) (text : Text) : Prop :=
  t.variety = .atomic ∧ (t.primitiveOf = .float ∨ t.primitiveOf = .double) ∧ t.whiteSpace.apply text = "NaN"

instance : Decidable (t.IsNaN text) := inferInstanceAs (Decidable (_ ∧ _ ∧ _))

/-- The text has more digits than arithmetic allows. -/
def Overflows (t : SimpleType) (text : Text) : Prop :=
  t.variety = .atomic ∧ Value.read t.primitiveOf (t.whiteSpace.apply text) = .error .overflow

/-- What a text denotes: a point of the value space, or itself if it is no value of an atomic type. -/
def denoted? (t : SimpleType) (text : Text) : Option (Text ⊕ Point) :=
  let lexical := t.whiteSpace.apply text
  if t.variety = .atomic then
    match Value.read t.primitiveOf lexical with
    | .ok v => v.point?.map .inr
    | .error .overflow => none
    | .error _ => some (.inl lexical)
  else some (.inl lexical)

theorem denoted?_of_read {v : Value} (ht : t.variety = .atomic)
    (hread : Value.read t.primitiveOf (t.whiteSpace.apply text) = .ok v) : t.denoted? text = v.point?.map .inr := by
  rw [denoted?, if_pos ht, hread]

theorem denoted?_of_error {e : LexicalError} (ht : t.variety = .atomic)
    (hread : Value.read t.primitiveOf (t.whiteSpace.apply text) = .error e) {d : Text ⊕ Point}
    (h : t.denoted? text = some d) : d = .inl (t.whiteSpace.apply text) := by
  rw [denoted?, if_pos ht, hread] at h
  split at h
  · next heq => exact nomatch heq
  · exact nomatch h
  · exact (Option.some.inj h).symm

/-- Two texts have the same value if they denote the same. -/
theorem sameValue?_eq_true_iff : t.sameValue? a b = some true ↔ ∃ d, t.denoted? a = some d ∧ t.denoted? b = some d := by
  rw [sameValue?]
  by_cases ht : t.variety = .atomic
  case neg => simp [denoted?, ht, eq_comm]
  simp only [if_pos ht]
  cases ha : Value.read t.primitiveOf (t.whiteSpace.apply a) with
  | ok x =>
      rw [denoted?_of_read ht ha]
      cases hb : Value.read t.primitiveOf (t.whiteSpace.apply b) with
      | ok y => simp [denoted?_of_read ht hb, Value.equal_iff]
      | error e =>
          -- one that is read and one that is not cannot be the same text
          have hne : t.whiteSpace.apply a ≠ t.whiteSpace.apply b := fun h => by simp [h, hb] at ha
          refine iff_of_false (by cases e <;> simp [hne]) ?_
          rintro ⟨d, hda, hdb⟩
          obtain rfl := denoted?_of_error ht hb hdb
          obtain ⟨p, _, hp⟩ := Option.map_eq_some_iff.1 hda
          exact nomatch hp
  | error e =>
      by_cases heq : t.whiteSpace.apply a = t.whiteSpace.apply b
      · rw [denoted?, denoted?, ← heq, ha]
        cases e <;> simp [ht]
      · refine iff_of_false (by cases e <;> simp [heq]) ?_
        rintro ⟨d, hda, hdb⟩
        obtain rfl := denoted?_of_error ht ha hda
        cases hb : Value.read t.primitiveOf (t.whiteSpace.apply b) with
        | ok y =>
            rw [denoted?_of_read ht hb] at hdb
            obtain ⟨p, _, hp⟩ := Option.map_eq_some_iff.1 hdb
            exact nomatch hp
        | error e' => exact heq (Sum.inl.inj (denoted?_of_error ht hb hdb))

theorem sameValue?_symm (h : t.sameValue? a b = some true) : t.sameValue? b a = some true := by
  obtain ⟨d, ha, hb⟩ := sameValue?_eq_true_iff.1 h
  exact sameValue?_eq_true_iff.2 ⟨d, hb, ha⟩

theorem sameValue?_trans (h : t.sameValue? a b = some true) (h' : t.sameValue? b c = some true) :
    t.sameValue? a c = some true := by
  obtain ⟨d, ha, hb⟩ := sameValue?_eq_true_iff.1 h
  obtain ⟨d', hb', hc⟩ := sameValue?_eq_true_iff.1 h'
  exact sameValue?_eq_true_iff.2 ⟨d, ha, hc.trans (hb'.symm.trans hb)⟩

theorem isNaN_iff_read : t.IsNaN text ↔
    t.variety = .atomic ∧ Value.read t.primitiveOf (t.whiteSpace.apply text) = .ok (.double .nan) := by
  rw [IsNaN, Value.read_eq_nan_iff]

/-- A text has not the value of itself if it is that of the number that is none, and it cannot be told if it has more
digits than arithmetic allows. -/
theorem sameValue?_self :
    (t.sameValue? a a = some false ↔ t.IsNaN a) ∧ (t.sameValue? a a = none ↔ t.Overflows a) := by
  rw [isNaN_iff_read, Overflows, sameValue?]
  by_cases hatomic : t.variety = .atomic
  case neg => simp [hatomic]
  simp only [hatomic, true_and]
  cases Value.read t.primitiveOf (t.whiteSpace.apply a) with
  | ok x => simp [← Bool.not_eq_true, Value.equal_self_iff]
  | error e => cases e <;> simp

theorem sameValue?_self_iff : t.sameValue? a a = some true ↔ ¬ t.IsNaN a ∧ ¬ t.Overflows a := by
  rw [← sameValue?_self.1, ← sameValue?_self.2]
  rcases t.sameValue? a a with _ | _ | _ <;> simp

end SimpleType

end XmlSchema
