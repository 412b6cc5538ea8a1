import Mathlib
import XmlSchema.Proofs.Text.Paths
import XmlSchema.Text.WhiteSpace

/-!
White space of texts. Collapsing a text leaves its maximal runs of characters other than spaces, with single spaces
between them. A text whose spaces are replaced keeps its length, and of two treatments one after the other the stricter
one decides, in either order.
-/

namespace XmlSchema

namespace WhiteSpace

/-- The maximal runs of characters other than spaces in a text, in their order. -/
inductive HasRuns : Text → List Text → Prop
  | done : HasRuns [] []
  | space {c t runs} : c.isSpace = true → HasRuns t runs → HasRuns (c :: t) runs
  | run {run t runs} : run ≠ [] → (∀ c ∈ run, c.isSpace = false) → (∀ c ∈ t.head?, c.isSpace = true) →
      HasRuns t runs → HasRuns (run ++ t) (run :: runs)

/-- What can stand between spaces. -/
def IsRun (run : Text) : Prop := run ≠ [] ∧ ∀ c ∈ run, c.isSpace = false

variable {t run : Text} {runs : List Text}

theorem HasRuns.isRun (h : HasRuns t runs) : ∀ run ∈ runs, IsRun run := by
  induction h with
  | done => exact fun _ h => nomatch h
  | space _ _ ih => exact ih
  | run hne hrun _ _ ih => exact List.forall_mem_cons.2 ⟨⟨hne, hrun⟩, ih⟩

/-! ### Spaces that are replaced -/

theorem isSpace_blank : (CodePoint.ofChar ' ').isSpace = true := rfl

theorem IsRun.notMem (h : IsRun run) : CodePoint.ofChar ' ' ∉ run := by
  intro hc
  have hblank := h.2 _ hc
  rw [isSpace_blank] at hblank
  exact Bool.noConfusion hblank

theorem spaced_append (s t : Text) : spaced (s ++ t) = spaced s ++ spaced t := List.map_append

theorem spaced_cons_space {c : CodePoint} (h : c.isSpace = true) (t : Text) :
    spaced (c :: t) = CodePoint.ofChar ' ' :: spaced t := by
  rw [spaced, spaced, List.map_cons, if_pos h]

/-- A text whose only spaces are blanks has nothing to replace. -/
theorem spaced_eq_self (h : ∀ c ∈ t, c.isSpace = true → c = ' ') : spaced t = t := by
  refine (List.map_congr_left fun c hc => ?_).trans (List.map_id t)
  split
  · exact (h c hc ‹_›).symm
  · rfl

theorem IsRun.spaced_eq (h : IsRun run) : spaced run = run :=
  spaced_eq_self fun c hc hspace => by rw [h.2 c hc] at hspace; exact Bool.noConfusion hspace

theorem eq_blank_of_mem_spaced {c : CodePoint} (hc : c ∈ spaced t) (hspace : c.isSpace = true) : c = ' ' := by
  obtain ⟨d, _, rfl⟩ := List.mem_map.1 hc
  split at hspace
  · exact if_pos ‹_›
  · exact absurd hspace ‹_›

/-! ### Runs as tokens -/

/-- What stands between blanks. -/
def tokens (t : Text) : List Text := (Text.splitOn ' ' t).filter (!·.isEmpty)

theorem tokens_cons_blank (t : Text) : tokens (CodePoint.ofChar ' ' :: t) = tokens t := by
  rw [tokens, Text.splitOn_eq, List.splitOn, List.splitOnP_cons_eq_if_modifyHead, if_pos (beq_self_eq_true _),
    ← List.splitOn, ← Text.splitOn_eq]
  rfl

theorem tokens_run_append (hrun : IsRun run) (ht : ∀ c ∈ t.head?, c = CodePoint.ofChar ' ') :
    tokens (run ++ t) = run :: tokens t := by
  have hmark : ∀ c ∈ run, (c == CodePoint.ofChar ' ') = false := fun c hc =>
    beq_eq_false_iff_ne.2 fun heq => hrun.notMem (heq ▸ hc)
  have hne : run.isEmpty = false := List.isEmpty_eq_false_iff.2 hrun.1
  cases t with
  | nil =>
      rw [List.append_nil, tokens, Text.splitOn_eq, List.splitOn, List.splitOnP_eq_singleton hmark]
      simp [hne, tokens, Text.splitOn]
  | cons c t =>
      obtain rfl : c = CodePoint.ofChar ' ' := ht c rfl
      rw [tokens_cons_blank, tokens, tokens, Text.splitOn_eq, Text.splitOn_eq, List.splitOn,
        List.splitOnP_append_cons_of_forall_mem hmark _ (beq_self_eq_true _), List.filter_cons, hne]
      rfl

theorem HasRuns.tokens_eq (h : HasRuns t runs) : tokens (spaced t) = runs := by
  induction h with
  | done => rfl
  | space hc _ ih => rw [spaced_cons_space hc, tokens_cons_blank, ih]
  | @run run t runs hne hrun ht _ ih =>
      have hhead : ∀ c ∈ (spaced t).head?, c = CodePoint.ofChar ' ' := by
        cases t with
        | nil => exact fun _ h => nomatch h
        | cons c t =>
            rw [spaced_cons_space (ht c rfl)]
            exact fun _ h => (Option.some.inj h).symm
      rw [spaced_append, IsRun.spaced_eq ⟨hne, hrun⟩, tokens_run_append ⟨hne, hrun⟩ hhead, ih]

theorem HasRuns.unique {runs' : List Text} (h : HasRuns t runs) (h' : HasRuns t runs') : runs = runs' :=
  h.tokens_eq.symm.trans h'.tokens_eq

theorem exists_hasRuns (t : Text) : ∃ runs, HasRuns t runs := by
  induction t with
  | nil => exact ⟨[], .done⟩
  | cons c t ih =>
      obtain ⟨runs, hruns⟩ := ih
      cases hc : c.isSpace with
      | true => exact ⟨runs, .space hc hruns⟩
      | false =>
          -- it goes into the run that the rest starts with, or is a run of its own in front of a space
          have halone : ∀ d ∈ [c], d.isSpace = false := fun d hd => List.mem_singleton.1 hd ▸ hc
          cases hruns with
          | done => exact ⟨[[c]], .run (List.cons_ne_nil c []) halone (fun _ h => nomatch h) .done⟩
          | space hd hrest =>
              exact ⟨[c] :: runs, .run (List.cons_ne_nil c []) halone (fun _ h => Option.some.inj h ▸ hd)
                (.space hd hrest)⟩
          | @run run t runs hne hrun ht hrest =>
              exact ⟨(c :: run) :: runs, .run (List.cons_ne_nil c run) (List.forall_mem_cons.2 ⟨hc, hrun⟩) ht hrest⟩

theorem hasRuns_iff : HasRuns t runs ↔ tokens (spaced t) = runs := by
  obtain ⟨runs', h⟩ := exists_hasRuns t
  exact ⟨HasRuns.tokens_eq, fun heq => by rwa [← heq, h.tokens_eq]⟩

/-! ### Runs one space apart -/

theorem hasRuns_join (h : ∀ run ∈ runs, IsRun run) : HasRuns (Text.join " " runs) runs := by
  rw [Text.join_eq_intercalate]
  induction runs with
  | nil => exact .done
  | cons run runs ih =>
      obtain ⟨hrun, hruns⟩ := List.forall_mem_cons.1 h
      have hrest := ih hruns
      cases runs with
      | nil =>
          have hlast : HasRuns (run ++ []) [run] := .run hrun.1 hrun.2 (fun _ h => nomatch h) .done
          rw [List.append_nil] at hlast
          rwa [List.intercalate_singleton]
      | cons run' runs =>
          rw [List.intercalate_cons_cons, List.append_assoc]
          exact .run hrun.1 hrun.2 (fun _ h => Option.some.inj h ▸ isSpace_blank) (.space isSpace_blank hrest)

theorem eq_blank_of_mem_join (h : ∀ run ∈ runs, IsRun run) {c : CodePoint} (hc : c ∈ Text.join " " runs)
    (hspace : c.isSpace = true) : c = ' ' := by
  rcases Text.mem_join hc with hc | ⟨run, hrun, hc⟩
  · exact List.mem_singleton.1 hc
  · rw [(h run hrun).2 c hc] at hspace
    exact Bool.noConfusion hspace

theorem join_cons (run : Text) (hne : runs ≠ []) :
    Text.join " " (run :: runs) = run ++ CodePoint.ofChar ' ' :: Text.join " " runs := by
  obtain ⟨run', runs, rfl⟩ := List.exists_cons_of_ne_nil hne
  rw [Text.join_eq_intercalate, Text.join_eq_intercalate, List.intercalate_cons_cons, List.append_assoc]
  rfl

theorem isSpace_getLast_join (h : ∀ run ∈ runs, IsRun run) :
    ∀ c ∈ (Text.join " " runs).getLast?, c.isSpace = false := by
  induction runs with
  | nil => exact fun _ h => nomatch h
  | cons run runs ih =>
      obtain ⟨hrun, hruns⟩ := List.forall_mem_cons.1 h
      cases runs with
      | nil =>
          rw [Text.join, List.flatMap_nil, List.append_nil]
          exact fun c hc => hrun.2 c (List.mem_of_getLast? hc)
      | cons run' runs =>
          have hne : Text.join " " (run' :: runs) ≠ [] := by
            rw [Text.join]
            exact List.append_ne_nil_of_left_ne_nil (hruns run' List.mem_cons_self).1 _
          rw [join_cons run (List.cons_ne_nil _ _), List.append_cons, List.getLast?_append_of_ne_nil _ hne]
          exact ih hruns

/-! ### Blanks that are squeezed and stripped -/

theorem squeezed_cons_of_ne {c : CodePoint} (hc : c ≠ ' ') (t : Text) : squeezed (c :: t) = c :: squeezed t := by
  rw [squeezed_cons, if_neg (by simp [hc])]

/-- Behind a blank no other one is left. -/
theorem squeezed_cons_blank (t : Text) :
    squeezed (CodePoint.ofChar ' ' :: t) =
      CodePoint.ofChar ' ' :: (squeezed t).dropWhile (· = CodePoint.ofChar ' ') := by
  induction t with
  | nil => rfl
  | cons c t ih =>
      by_cases hc : c = ' '
      · rw [hc, squeezed_cons, ih, List.dropWhile_cons_of_pos (by simp), List.dropWhile_idempotent, if_pos (by simp)]
      · rw [squeezed_cons, squeezed_cons_of_ne hc, List.dropWhile_cons_of_neg (by simpa using hc),
          if_neg (by simp [hc])]

theorem ne_blank {c : CodePoint} (hc : c.isSpace = false) : c ≠ ' ' := by
  rintro rfl
  exact Bool.noConfusion hc

theorem squeezed_append (h : ∀ c ∈ run, c.isSpace = false) (t : Text) : squeezed (run ++ t) = run ++ squeezed t := by
  induction run with
  | nil => rfl
  | cons c run ih =>
      obtain ⟨hc, hrun⟩ := List.forall_mem_cons.1 h
      rw [List.cons_append, squeezed_cons_of_ne (ne_blank hc), ih hrun, List.cons_append]

theorem IsRun.dropWhile_append (h : IsRun run) (t : Text) :
    (run ++ t).dropWhile (· = CodePoint.ofChar ' ') = run ++ t := by
  obtain ⟨hne, hrun⟩ := h
  cases run with
  | nil => exact absurd rfl hne
  | cons c run =>
      have hc := ne_blank (hrun c List.mem_cons_self)
      rw [List.cons_append, List.dropWhile_cons_of_neg (by simpa using hc)]

/-- Squeezed, and stripped in front, a text is its runs one blank apart with perhaps a blank behind them. -/
theorem HasRuns.dropWhile_squeezed (h : HasRuns t runs) : ∃ tail : Text,
    (squeezed (spaced t)).dropWhile (· = CodePoint.ofChar ' ') = Text.join " " runs ++ tail ∧
      (∀ c ∈ tail, c = ' ') ∧ (runs = [] → tail = []) := by
  induction h with
  | done => exact ⟨[], rfl, (fun _ hc => absurd hc List.not_mem_nil), fun _ => rfl⟩
  | @space c t runs hc _ ih =>
      obtain ⟨tail, htail, h⟩ := ih
      refine ⟨tail, ?_, h⟩
      rw [spaced_cons_space hc, squeezed_cons_blank, List.dropWhile_cons_of_pos (by simp), List.dropWhile_idempotent,
        htail]
  | @run run t runs hne hrun ht hrest ih =>
      obtain ⟨tail, htail, hblank, hnil⟩ := ih
      rw [spaced_append, IsRun.spaced_eq ⟨hne, hrun⟩, squeezed_append hrun, IsRun.dropWhile_append ⟨hne, hrun⟩]
      cases t with
      | nil =>
          obtain rfl : runs = [] := hrest.unique .done
          exact ⟨[], by simp [Text.join, spaced, squeezed], (fun _ hc => absurd hc List.not_mem_nil), fun _ => rfl⟩
      | cons c t =>
          -- behind the run a blank stands for all the spaces that follow it
          rw [spaced_cons_space (ht c rfl), squeezed_cons_blank] at htail ⊢
          rw [List.dropWhile_cons_of_pos (by simp), List.dropWhile_idempotent] at htail
          rw [htail]
          have hcons : run :: runs ≠ [] := List.cons_ne_nil _ _
          by_cases hruns : runs = []
          · refine ⟨[' '], ?_, (fun c hc => List.mem_singleton.1 hc), (absurd · hcons)⟩
            rw [hruns, hnil hruns]
            simp [Text.join]
          · exact ⟨tail, by rw [join_cons run hruns, List.append_assoc, List.cons_append], hblank, (absurd · hcons)⟩

/-- Collapsing keeps the runs of a text and puts one space between them. -/
theorem HasRuns.collapse_eq (h : HasRuns t runs) : collapse.apply t = Text.join " " runs := by
  obtain ⟨tail, htail, hblank, -⟩ := h.dropWhile_squeezed
  have hlast : (Text.join " " runs).reverse.dropWhile (· = CodePoint.ofChar ' ') = (Text.join " " runs).reverse := by
    cases hjoin : (Text.join " " runs).reverse with
    | nil => rfl
    | cons c rest =>
        have hc : c ∈ (Text.join " " runs).getLast? := by rw [List.getLast?_eq_head?_reverse, hjoin]; rfl
        exact List.dropWhile_cons_of_neg (by simpa using ne_blank (isSpace_getLast_join h.isRun c hc))
  rw [apply, Text.strip, htail, List.reverse_append, List.dropWhile_append_of_pos (by simpa using hblank), hlast,
    List.reverse_reverse]

theorem HasRuns.collapse (h : HasRuns t runs) : HasRuns (collapse.apply t) runs :=
  h.collapse_eq ▸ hasRuns_join h.isRun

/-- A text that a mode has treated is left alone by every mode that is no stricter. -/
theorem apply_apply {w v : WhiteSpace} (h : w.strictness ≤ v.strictness) (t : Text) :
    w.apply (v.apply t) = v.apply t := by
  obtain ⟨runs, hruns⟩ := exists_hasRuns t
  cases v with
  | preserve =>
      cases w with
      | preserve => rfl
      | replace | collapse => exact absurd h (by decide)
  | replace =>
      cases w with
      | preserve => rfl
      | replace => exact spaced_eq_self fun c hc hspace => eq_blank_of_mem_spaced hc hspace
      | collapse => exact absurd h (by decide)
  | collapse =>
      rw [hruns.collapse_eq]
      cases w with
      | preserve => rfl
      | replace => exact spaced_eq_self fun c hc hspace => eq_blank_of_mem_join hruns.isRun hc hspace
      | collapse => exact (hasRuns_join hruns.isRun).collapse_eq

/-- The stricter of two treatments. -/
def stricter (w v : WhiteSpace) : WhiteSpace := if w.strictness ≤ v.strictness then v else w

/-! ### Blanks that are left -/

theorem head?_collapse (t : Text) : (collapse.apply t).head? ≠ some (' ' : CodePoint) := by
  obtain ⟨runs, h⟩ := exists_hasRuns t
  rw [h.collapse_eq]
  cases runs with
  | nil => exact (nomatch ·)
  | cons run runs =>
      obtain ⟨hne, hrun⟩ := h.isRun run List.mem_cons_self
      rw [Text.join, List.head?_append_of_ne_nil _ hne]
      exact fun hhead => ne_blank (hrun _ (List.mem_of_head? hhead)) rfl

theorem getLast?_collapse (t : Text) : (collapse.apply t).getLast? ≠ some (' ' : CodePoint) := by
  obtain ⟨runs, h⟩ := exists_hasRuns t
  rw [h.collapse_eq]
  exact fun hlast => ne_blank (isSpace_getLast_join h.isRun _ hlast) rfl

theorem not_infix_squeezed (t : Text) : ¬([' ', ' '] : Text) <:+: squeezed t := by
  induction t with
  | nil => exact (nomatch List.infix_nil.1 ·)
  | cons c t ih =>
      rw [squeezed_cons]
      split
      · exact ih
      · next hc =>
          rw [List.infix_cons_iff]
          rintro (h | h)
          · -- a blank in front of another one has been dropped
            obtain ⟨rfl, hrest⟩ := List.cons_prefix_cons.1 h
            obtain ⟨rest, hrest⟩ := hrest
            exact hc (by simp [← hrest])
          · exact ih h

theorem isInfix_strip (p : CodePoint → Bool) (t : Text) : Text.strip p t <:+: t := by
  have hprefix : Text.strip p t <+: t.dropWhile p := by
    rw [Text.strip, ← List.reverse_suffix, List.reverse_reverse]
    exact List.dropWhile_suffix p
  exact hprefix.isInfix.trans (List.dropWhile_suffix p).isInfix

theorem not_infix_collapse (t : Text) : ¬([' ', ' '] : Text) <:+: collapse.apply t :=
  fun h => not_infix_squeezed (spaced t) (h.trans (isInfix_strip _ _))

/-! ### Treatments one after the other -/

theorem spaced_spaced (t : Text) : spaced (spaced t) = spaced t :=
  spaced_eq_self fun _ hc hspace => eq_blank_of_mem_spaced hc hspace

/-- A text that has been treated less strictly comes out as it does untreated. -/
theorem apply_apply_of_le {w v : WhiteSpace} (h : v.strictness ≤ w.strictness) (t : Text) :
    w.apply (v.apply t) = w.apply t := by
  cases v with
  | preserve => rfl
  | replace =>
      cases w with
      | preserve => exact absurd h (by decide)
      | replace => exact spaced_spaced t
      | collapse => rw [apply, apply, apply, spaced_spaced]
  | collapse =>
      cases w with
      | preserve | replace => exact absurd h (by decide)
      | collapse => exact apply_apply (Nat.le_refl _) t

theorem apply_apply_eq_stricter (w v : WhiteSpace) (t : Text) : w.apply (v.apply t) = (stricter w v).apply t := by
  rw [stricter]
  split
  · next h => exact apply_apply h t
  · next h => exact apply_apply_of_le (Nat.le_of_not_le h) t

/-- What a character is replaced by: the three space characters other than a blank, by a blank. -/
def replacement (c : CodePoint) : CodePoint := if c = '\t' ∨ c = '\n' ∨ c = '\r' then ' ' else c

theorem isSpace_iff {c : CodePoint} : c.isSpace = true ↔ c = ' ' ∨ c = '\t' ∨ c = '\n' ∨ c = '\r' := by
  have heq (d : Char) : c = d ↔ c.val = d.val.toNat := ⟨fun h => h ▸ rfl, fun h => CodePoint.ext_val h⟩
  simp [CodePoint.isSpace, heq, or_assoc]

theorem replace_eq_map (t : Text) : replace.apply t = t.map replacement := by
  refine List.map_congr_left fun c _ => ?_
  rw [replacement]
  by_cases hc : c = ' '
  · rw [hc]
    rfl
  · simp only [isSpace_iff, hc, false_or]

/-- Collapsing gives the runs of a text with single spaces between them and nowhere else, replacing changes the other
three space characters where they stand, each treatment is done after one time, and of two the stricter one decides. -/
theorem normalization_canonical (t : Text) :
    ((∃ runs, (∀ runs', HasRuns t runs' ↔ runs' = runs) ∧ collapse.apply t = Text.join " " runs) ∧
      (collapse.apply t).head? ≠ some (' ' : CodePoint) ∧ (collapse.apply t).getLast? ≠ some (' ' : CodePoint) ∧
      ¬([' ', ' '] : Text) <:+: collapse.apply t) ∧
    ((replace.apply t).length = t.length ∧ ∀ i : Nat, (replace.apply t)[i]? = t[i]?.map replacement) ∧
    (∀ w : WhiteSpace, w.apply (w.apply t) = w.apply t) ∧
    ∀ w v : WhiteSpace, w.apply (v.apply t) = (stricter w v).apply t := by
  obtain ⟨runs, hruns⟩ := exists_hasRuns t
  have hunique (runs' : List Text) : HasRuns t runs' ↔ runs' = runs := ⟨fun h => h.unique hruns, fun h => h ▸ hruns⟩
  refine ⟨⟨⟨runs, hunique, hruns.collapse_eq⟩, head?_collapse t, getLast?_collapse t, not_infix_collapse t⟩,
    ⟨List.length_map _, fun i => ?_⟩, fun w => apply_apply (Nat.le_refl _) t, fun w v => apply_apply_eq_stricter w v t⟩
  rw [replace_eq_map, List.getElem?_map]

end WhiteSpace

end XmlSchema
