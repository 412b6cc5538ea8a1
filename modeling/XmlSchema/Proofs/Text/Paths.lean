import XmlSchema.Text.Percent

/-!
Texts as paths: names joined by a mark that none of them holds are split into the same names again, and percent escapes
leave a text alone that has no percent sign. Also the order of texts, in which names are sorted.
-/

namespace XmlSchema.Text

/-! ### Splitting and joining -/

/-- The first mark splits a text in one way only. -/
theorem eq_of_append_cons {c : CodePoint} {t t' rest rest' : Text} (h : c ∉ t) (h' : c ∉ t')
    (he : t ++ c :: rest = t' ++ c :: rest') : t = t' ∧ rest = rest' := by
  induction t generalizing t' with
  | nil =>
      cases t' with
      | nil => exact ⟨rfl, List.tail_eq_of_cons_eq he⟩
      | cons d t' => exact absurd (List.head_eq_of_cons_eq he) (List.ne_of_not_mem_cons h')
  | cons d t ih =>
      cases t' with
      | nil => exact absurd (List.head_eq_of_cons_eq he).symm (List.ne_of_not_mem_cons h)
      | cons d' t' =>
          obtain ⟨rfl, hlater⟩ := List.cons.inj he
          obtain ⟨rfl, hrest⟩ := ih (List.not_mem_of_not_mem_cons h) (List.not_mem_of_not_mem_cons h') hlater
          exact ⟨rfl, hrest⟩

theorem splitOn_eq (mark : CodePoint) (t : Text) : splitOn mark t = List.splitOn mark t := by
  induction t with
  | nil => rfl
  | cons c t ih =>
      rw [List.splitOn, List.splitOnP_cons_eq_if_modifyHead, ← List.splitOn, ← ih]
      cases hparts : splitOn mark t with
      | nil => exact absurd (ih.symm.trans hparts) (List.splitOnP_ne_nil _ _)
      | cons part later =>
          rw [splitOn] at hparts
          rw [splitOn, List.foldr_cons, hparts]
          by_cases hc : c = mark <;> simp [hc]

theorem join_eq_intercalate (separator : Text) (ts : List Text) : join separator ts = separator.intercalate ts := by
  cases ts with
  | nil => rfl
  | cons t ts =>
      rw [join]
      induction ts generalizing t with
      | nil => simp
      | cons u ts ih => rw [List.intercalate_cons_cons, ← ih, List.flatMap_cons, List.append_assoc, List.append_assoc]

theorem splitOn_join {mark : CodePoint} {names : List Text} (hnames : ∀ name ∈ names, mark ∉ name) (hne : names ≠ []) :
    splitOn mark (join [mark] names) = names := by
  rw [splitOn_eq, join_eq_intercalate]
  exact List.splitOn_intercalate mark hnames hne

theorem join_concat (separator : Text) {names : List Text} (name : Text) (hne : names ≠ []) :
    join separator (names ++ [name]) = join separator names ++ separator ++ name := by
  obtain ⟨first, names, rfl⟩ := List.exists_cons_of_ne_nil hne
  simp [join]

theorem mem_join {separator : Text} {names : List Text} {c : CodePoint} (h : c ∈ join separator names) :
    c ∈ separator ∨ ∃ name ∈ names, c ∈ name := by
  cases names with
  | nil => simp [join] at h
  | cons name names =>
      rw [join, List.mem_append, List.mem_flatMap] at h
      rcases h with h | ⟨other, hother, h⟩
      · exact .inr ⟨name, List.mem_cons_self, h⟩
      · rcases List.mem_append.1 h with h | h
        · exact .inl h
        · exact .inr ⟨other, List.mem_cons_of_mem _ hother, h⟩

/-! ### The order of texts -/

theorem order_eq_eq_iff {s t : Text} : order s t = .eq ↔ s = t := by
  induction s generalizing t with
  | nil => cases t <;> simp [order]
  | cons a s ih =>
      cases t with
      | nil => simp [order]
      | cons b t =>
          rw [order]
          split
          · simp only [reduceCtorEq, List.cons.injEq, false_iff, not_and]
            rintro rfl
            omega
          · split
            · simp only [reduceCtorEq, List.cons.injEq, false_iff, not_and]
              rintro rfl
              omega
            · have hab : a = b := CodePoint.ext_val (by omega)
              simp [ih, hab]

theorem order_swap (s t : Text) : order t s = (order s t).swap := by
  induction s generalizing t with
  | nil => cases t <;> simp [order]
  | cons a s ih =>
      cases t with
      | nil => simp [order]
      | cons b t =>
          rw [order, order]
          split
          · rw [if_neg (by omega)]; rfl
          · split
            · rfl
            · exact ih t

theorem order_trans {s t u : Text} (hst : order s t ≠ .gt) (htu : order t u ≠ .gt) : order s u ≠ .gt := by
  induction s generalizing t u with
  | nil => cases u <;> simp [order]
  | cons a s ih =>
      cases t with
      | nil => simp [order] at hst
      | cons b t =>
          cases u with
          | nil => simp [order] at htu
          | cons c u =>
              rw [order] at hst htu ⊢
              split at hst
              · split at htu
                · rw [if_pos (by omega)]; simp
                · split at htu
                  · simp at htu
                  · rw [if_pos (by omega)]; simp
              · split at hst
                · simp at hst
                · split at htu
                  · rw [if_pos (by omega)]; simp
                  · split at htu
                    · simp at htu
                    · rw [if_neg (by omega), if_neg (by omega)]
                      exact ih hst htu

/-! ### Percent escapes -/

namespace Percent

theorem bytesFrom_plain {run : Text} (h : ∀ c ∈ run, c ≠ CodePoint.ofChar '%') (read : List UInt8) :
    bytesFrom read run = (run.map fun c => UInt8.ofNat c.val).reverse ++ read := by
  induction run generalizing read with
  | nil => simp [bytesFrom]
  | cons a run ih =>
      have hrest := ih (fun c hc => h c (List.mem_cons_of_mem _ hc)) (UInt8.ofNat a.val :: read)
      have hcons : bytesFrom read (a :: run) = bytesFrom (UInt8.ofNat a.val :: read) run := by
        match run with
        | [] => rfl
        | [b] => rfl
        | b :: c :: t => rw [bytesFrom, if_neg (h a List.mem_cons_self)]
      rw [hcons, hrest]
      simp

theorem decodeFrom_ascii {run : Text} (h : ∀ c ∈ run, isAscii c = true) (read : List (Option CodePoint)) :
    Utf8.decodeFrom run.length read (run.map fun c => UInt8.ofNat c.val) = read.reverse ++ run.map some := by
  induction run generalizing read with
  | nil => simp [Utf8.decodeFrom]
  | cons a run ih =>
      have ha : a.val < 0x80 := by simpa [isAscii] using h a List.mem_cons_self
      have hval : (UInt8.ofNat a.val).toNat = a.val := by simp; omega
      have hlead : Utf8.lead? (UInt8.ofNat a.val) = some ⟨0, a.val, 0x80, 0xBF⟩ := by
        rw [Utf8.lead?, hval, if_pos ha]
      have hpoint : CodePoint.ofNat? a.val = some a := by simp [CodePoint.ofNat?, a.val_le]
      rw [List.length_cons, List.map_cons, Utf8.decodeFrom, hlead]
      simp only [Utf8.readFollowing, Option.bind_some, hpoint]
      rw [ih fun c hc => h c (List.mem_cons_of_mem _ hc)]
      simp

theorem decodeRun_plain {run : Text} (hplain : ∀ c ∈ run, c ≠ CodePoint.ofChar '%')
    (hascii : ∀ c ∈ run, isAscii c = true) : decodeRun run = run := by
  have hbytes : bytes run = run.map fun c => UInt8.ofNat c.val := by simp [bytes, bytesFrom_plain hplain]
  have hdecode := decodeFrom_ascii hascii []
  rw [decodeRun]
  split
  · next hempty => exact (List.isEmpty_iff.1 hempty).symm
  · rw [Utf8.decodeLossy, Utf8.decode, hbytes, List.length_map, hdecode]
    simp [Function.comp_def]

/-- A text without a percent sign is taken as it is. -/
theorem decode_plain {t : Text} (h : ∀ c ∈ t, c ≠ CodePoint.ofChar '%') : decode t = t := by
  let step (c : CodePoint) (read : Text × List Text) : Text × List Text :=
    if isAscii c then (c :: read.1, read.2) else ([], [c] :: decodeRun read.1 :: read.2)
  have hread : ∃ run parts, t.foldr step ([], []) = (run, parts) ∧ (∀ c ∈ run, c ≠ CodePoint.ofChar '%') ∧
      (∀ c ∈ run, isAscii c = true) ∧ run ++ parts.flatten = t := by
    induction t with
    | nil => exact ⟨[], [], rfl, by simp, by simp, rfl⟩
    | cons c t ih =>
        obtain ⟨run, parts, hfold, hplain, hascii, ht⟩ := ih fun d hd => h d (List.mem_cons_of_mem _ hd)
        rw [List.foldr_cons, hfold]
        by_cases hc : isAscii c
        · exact ⟨c :: run, parts, by simp [step, hc], List.forall_mem_cons.2 ⟨h c List.mem_cons_self, hplain⟩,
            List.forall_mem_cons.2 ⟨hc, hascii⟩, by rw [List.cons_append, ht]⟩
        · exact ⟨[], [c] :: decodeRun run :: parts, by simp [step, hc], by simp, by simp,
            by simp [decodeRun_plain hplain hascii, ht]⟩
  obtain ⟨run, parts, hfold, hplain, hascii, ht⟩ := hread
  have hdecode : decode t = (decodeRun (t.foldr step ([], [])).1 :: (t.foldr step ([], [])).2).flatten := rfl
  rw [hdecode, hfold, List.flatten_cons, decodeRun_plain hplain hascii, ht]

end Percent

end XmlSchema.Text
