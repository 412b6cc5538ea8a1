import XmlSchema.Proofs.Pattern.Matching
import XmlSchema.Value.Lexical

/-!
Names without a colon and qualified names. The first are what the pattern of the built-in type stands for; a qualified
name is such a name, or two with a colon between them. A colon in front of a name is let pass too, though that is no
qualified name.
-/

namespace XmlSchema

variable {t lead last : Text} {mark : CodePoint}

/-! ### Names without a colon -/

/-- The text starts with a character that starts names, goes on with characters that names go on with, and has no
colon. -/
def IsNCName (t : Text) : Prop :=
  ∃ c rest, t = c :: rest ∧ NameCharacter.isStart c = true ∧ (∀ d ∈ rest, NameCharacter.isFollow d = true) ∧
    (':' : CodePoint) ∉ t

theorem isNCName_cons_iff {c : CodePoint} {rest : Text} : IsNCName (c :: rest) ↔
    (NameCharacter.isStart c = true ∧ c ≠ ':') ∧ ∀ d ∈ rest, NameCharacter.isFollow d = true ∧ d ≠ ':' := by
  constructor
  · rintro ⟨_, _, ⟨rfl, rfl⟩, hstart, hfollow, hcolon⟩
    rw [List.mem_cons, not_or] at hcolon
    exact ⟨⟨hstart, Ne.symm hcolon.1⟩, fun d hd => ⟨hfollow d hd, fun h => hcolon.2 (h ▸ hd)⟩⟩
  · rintro ⟨⟨hstart, hc⟩, hrest⟩
    refine ⟨c, rest, rfl, hstart, fun d hd => (hrest d hd).1, fun hcolon => ?_⟩
    rcases List.mem_cons.1 hcolon with h | h
    · exact hc h.symm
    · exact (hrest _ h).2 rfl

theorem not_isNCName_nil : ¬IsNCName [] := fun ⟨_, _, h, _⟩ => nomatch h

theorem isNCName_iff : NameCharacter.isNCName t = true ↔ IsNCName t := by
  cases t with
  | nil => exact ⟨nofun, fun h => absurd h not_isNCName_nil⟩
  | cons c rest =>
      rw [isNCName_cons_iff]
      simp [NameCharacter.isNCName]

theorem IsNCName.notMem (h : IsNCName t) : (':' : CodePoint) ∉ t := h.elim fun _ ⟨_, h⟩ => h.2.2.2

namespace Pattern

/-- The class of the characters of a set that are no colon. -/
theorem denotes_withoutColon {c d : Char} {s : Set CodePoint} (h : NamedSet c d s) :
    Denotes schemaDialect .atom ['[', '\\', c, '-', '[', ':', ']', ']'] (single (s \ {(':' : CodePoint)})) := by
  have hpoint : Member [(':' : CodePoint)] {(':' : CodePoint)} [(']' : CodePoint)] :=
    .point (.literal (by decide) (by decide)) rfl
  have hcolon : Members true ([(':' : CodePoint)] ++ [(']' : CodePoint)]) ({(':' : CodePoint)} ∪ ∅) ∅ :=
    .more nofun hpoint .close
  have hset (rest : Text) : Member ['\\', c] s rest := .set (.named h)
  have hmembers : Members true _ _ _ := .more nofun (hset _) (.subtract false hcolon fun _ => by decide)
  have hclass := ClassBody.intro false hmembers fun _ hmark => absurd (Option.some.inj hmark) (by decide)
  have hs : kept false (s ∪ ∅) \ (kept false ({(':' : CodePoint)} ∪ ∅) \ ∅) = s \ {(':' : CodePoint)} := by simp [kept]
  rw [hs] at hclass
  exact .leaf (.bracketed hclass)

/-- The pattern of the built-in type stands for the names without a colon. -/
theorem isMatch_ncName : ∃ p, compile "[\\i-[:]][\\c-[:]]*" = .ok p ∧ ∀ t, p.isMatch t = true ↔ IsNCName t := by
  have hascii : (match compile "[\\i-[:]][\\c-[:]]*" with
      | .ok p => (quantifiersOfAll p.branches).all fun q => !q.isLiteral
      | .error _ => false) = true := by decide +kernel
  cases hcompile : compile "[\\i-[:]][\\c-[:]]*" with
  | error f =>
      rw [hcompile] at hascii
      exact nomatch hascii
  | ok p =>
      rw [hcompile] at hascii
      obtain ⟨branches, hread, hlarge⟩ := bind_eq_ok.1 hcompile
      split at hlarge
      · exact nomatch hlarge
      cases hlarge
      have hquantifiers : AreAscii (quantifiersOfAll branches) := by simpa [AreAscii] using hascii
      obtain ⟨⟨hne, hfits⟩, hlanguage⟩ := read_sound hread hquantifiers
      have hsource : Denotes schemaDialect .branches "[\\i-[:]][\\c-[:]]*"
          (single ({c | NameCharacter.isStart c = true} \ {(':' : CodePoint)}) *
            (copies ⟨0, none⟩ (single ({c | NameCharacter.isFollow c = true} \ {(':' : CodePoint)})) * 1)) :=
        .last (.piece (.once (denotes_withoutColon .nameStart))
          (.piece (.repeated (denotes_withoutColon .nameFollow) .star) .empty))
      refine ⟨_, rfl, fun t => ?_⟩
      rw [isMatch_iff hne hfits, hsource.iff_eq.1 hlanguage, mul_one, Language.mem_mul]
      constructor
      · rintro ⟨_, ⟨c, hc, rfl⟩, rest, hrest, rfl⟩
        exact isNCName_cons_iff.2 ⟨hc, (mem_copies_single.1 hrest).2⟩
      · intro ht
        obtain ⟨c, rest, rfl, _⟩ := id ht
        obtain ⟨hc, hrest⟩ := isNCName_cons_iff.1 ht
        exact ⟨[c], ⟨c, hc, rfl⟩, rest, mem_copies_single.2 ⟨⟨Nat.zero_le _, nofun⟩, hrest⟩, rfl⟩

end Pattern

/-! ### Qualified names -/

/-- The text is a name without a colon, or two with a colon between them. -/
inductive IsQName : Text → Prop
  | bare {t : Text} (h : IsNCName t) : IsQName t
  | prefixed {lead last : Text} (h : IsNCName lead) (h' : IsNCName last) : IsQName (lead ++ (':' : CodePoint) :: last)

theorem Text.splitLast?_append (h : mark ∉ last) : Text.splitLast? mark (lead ++ mark :: last) = some (lead, last) := by
  have hlast : ∀ c ∈ last.reverse, decide (c ≠ mark) = true := fun c hc =>
    decide_eq_true fun hmark => h (hmark ▸ List.mem_reverse.1 hc)
  rw [splitLast?, List.reverse_append, List.reverse_cons, List.append_assoc, List.singleton_append,
    List.span_eq_takeWhile_dropWhile, List.takeWhile_append_of_pos hlast, List.dropWhile_append_of_pos hlast]
  simp

theorem Text.splitLast?_of_notMem (h : mark ∉ t) : Text.splitLast? mark t = none := by
  have hall : ∀ c ∈ t.reverse, decide (c ≠ mark) = true := fun c hc =>
    decide_eq_true fun hmark => h (hmark ▸ List.mem_reverse.1 hc)
  rw [splitLast?, List.span_eq_takeWhile_dropWhile, List.dropWhile_eq_nil_iff.2 hall]

theorem Text.exists_splitLast (h : mark ∈ t) : ∃ lead last, t = lead ++ mark :: last ∧ mark ∉ last := by
  obtain ⟨lead, last, ht, hlead⟩ := List.eq_append_cons_of_mem (List.mem_reverse.2 h)
  refine ⟨last.reverse, lead.reverse, ?_, fun hmark => hlead (List.mem_reverse.1 hmark)⟩
  rw [← List.reverse_reverse t, ht]
  simp

theorem isQName_append_iff (h : (':' : CodePoint) ∉ last) :
    IsQName (lead ++ (':' : CodePoint) :: last) ↔ IsNCName lead ∧ IsNCName last := by
  constructor
  · generalize ht : lead ++ (':' : CodePoint) :: last = t
    rintro (hname | @⟨lead', last', hlead, hlast⟩)
    · exact absurd (ht ▸ List.mem_append_right _ List.mem_cons_self) hname.notMem
    · have hsplit : Text.splitLast? ':' (lead ++ (':' : CodePoint) :: last) = some (lead, last) :=
        Text.splitLast?_append h
      rw [ht, Text.splitLast?_append hlast.notMem] at hsplit
      cases hsplit
      exact ⟨hlead, hlast⟩
  · rintro ⟨hlead, hlast⟩
    exact .prefixed hlead hlast

theorem isQName_iff_of_notMem (h : (':' : CodePoint) ∉ t) : IsQName t ↔ IsNCName t := by
  constructor
  · rintro (hname | _)
    · exact hname
    · exact absurd (List.mem_append_right _ List.mem_cons_self) h
  · exact .bare

namespace Lexical

theorem exists_read_append_iff (lead : Text) (h : (':' : CodePoint) ∉ last) :
    (∃ v, Value.read .qname (lead ++ (':' : CodePoint) :: last) = .ok v) ↔
      (lead = [] ∨ IsNCName lead) ∧ IsNCName last := by
  rw [Value.read, readQName, Text.splitLast?_append h, Option.getD_some, ← isNCName_iff, ← isNCName_iff,
    ← List.isEmpty_iff, ← Bool.or_eq_true, ← Bool.and_eq_true]
  dsimp only
  split
  · next hnames => exact iff_of_true ⟨_, rfl⟩ hnames
  · next hnames => exact iff_of_false (fun ⟨_, h⟩ => nomatch h) hnames

theorem exists_read_iff_of_notMem (h : (':' : CodePoint) ∉ t) :
    (∃ v, Value.read .qname t = .ok v) ↔ IsNCName t := by
  rw [Value.read, readQName, Text.splitLast?_of_notMem h, Option.getD_none, ← isNCName_iff]
  dsimp only
  rw [List.isEmpty_nil, Bool.true_or, Bool.true_and]
  split
  · next hname => exact iff_of_true ⟨_, rfl⟩ hname
  · next hname => exact iff_of_false (fun ⟨_, h⟩ => nomatch h) hname

end Lexical

open Lexical

theorem head?_ne_colon_of_isNCName (h : IsNCName lead) (rest : Text) : (lead ++ rest).head? ≠ some ':' := by
  obtain ⟨c, cs, rfl, _⟩ := id h
  exact fun hc => (isNCName_cons_iff.1 h).1.2 (Option.some.inj hc)

/-- A text that starts with no colon is read exactly if it is a qualified name. A colon is let pass in front of a name
without a colon. -/
theorem qnames_read (t : Text) :
    (IsQName t ↔ (∃ v, Value.read .qname t = .ok v) ∧ t.head? ≠ some ':') ∧
    ((∃ v, Value.read .qname ((':' : CodePoint) :: t) = .ok v) ↔ IsNCName t) := by
  by_cases hcolon : (':' : CodePoint) ∈ t
  · obtain ⟨lead, last, rfl, hlast⟩ := Text.exists_splitLast hcolon
    refine ⟨?_, ?_⟩
    · rw [isQName_append_iff hlast, exists_read_append_iff lead hlast]
      constructor
      · rintro ⟨hlead, hname⟩
        exact ⟨⟨.inr hlead, hname⟩, head?_ne_colon_of_isNCName hlead _⟩
      · rintro ⟨⟨rfl | hlead, hname⟩, hhead⟩
        · exact absurd rfl hhead
        · exact ⟨hlead, hname⟩
    · have hread := exists_read_append_iff ((':' : CodePoint) :: lead) hlast
      rw [List.cons_append] at hread
      rw [hread]
      refine iff_of_false (fun ⟨hlead, _⟩ => ?_) fun h => h.notMem hcolon
      rcases hlead with h | h
      · exact nomatch h
      · exact h.notMem List.mem_cons_self
  · refine ⟨?_, ?_⟩
    · rw [isQName_iff_of_notMem hcolon, exists_read_iff_of_notMem hcolon]
      exact ⟨fun h => ⟨h, fun hhead => hcolon (List.mem_of_mem_head? hhead)⟩, fun h => h.1⟩
    · have hread := exists_read_append_iff [] hcolon
      rw [List.nil_append] at hread
      simpa using hread

end XmlSchema
