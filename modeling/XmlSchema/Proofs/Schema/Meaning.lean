import XmlSchema.Proofs.Schema.Definitions
import XmlSchema.Proofs.Schema.Scopes

/-!
What definitions stand for. A definition is read again wherever it is referred to before its turn, in a scope that
depends on what has been read by then and on what is being read; yet it always stands for the same, since all of these
scopes find parts of one meaning.
-/

namespace XmlSchema.Schema

variable {r r' : Registry} {s s' : Scope} {read : List (DefinitionKey × Component)} {opened : List DefinitionKey}
  {key : DefinitionKey} {depth n m : Nat}

/-! ### Meaning -/

/-- What a definition stands for when it is read with all that it refers to, and references nest less than `depth`
deep. -/
def meaning (r : Registry) (s : Scope) : (depth : Nat) → DefinitionKey → Build (Option Component)
  | 0, _ => .error .tooDeep
  | depth + 1, key =>
    match r.item? key with
    | none => .ok none
    | some i => do
      let (c, _) ← readDefinition { s with definition? := meaning r s depth } key i {}
      return some c

theorem Scope.Le.finding (hs : s.Le s') {find find' : DefinitionKey → Build (Option Component)}
    (hf : ∀ key, Build.Le (find key) (find' key)) :
    Scope.Le { s with definition? := find } { s' with definition? := find' } :=
  { hs with definition? := hf }

theorem readDefinition_finding_le (hs : s.Le s') {find find' : DefinitionKey → Build (Option Component)}
    (hf : ∀ key, Build.Le (find key) (find' key)) (key : DefinitionKey) (i : Item) :
    Build.Le (do let (c, _) ← readDefinition { s with definition? := find } key i {}; return some c)
      (do let (c, _) ← readDefinition { s' with definition? := find' } key i {}; return some c) := by
  refine .bind (fun p hp => ?_) fun _ => .refl _
  have := (readDefinition_le (hs.finding hf) key i).from_empty hp {}
  rwa [Traces.append_empty] at this

theorem meaning_succ_le (hs : s.Le s') (hr : ∀ key, r'.item? key = r.item? key)
    (h : ∀ key, Build.Le (meaning r s n key) (meaning r' s' m key)) (key : DefinitionKey) :
    Build.Le (meaning r s (n + 1) key) (meaning r' s' (m + 1) key) := by
  rw [meaning, meaning, hr]
  cases r.item? key with
  | none => exact .refl _
  | some i => exact readDefinition_finding_le hs h key i

theorem meaning_le_succ (r : Registry) (s : Scope) (n : Nat) (key : DefinitionKey) :
    Build.Le (meaning r s n key) (meaning r s (n + 1) key) := by
  induction n generalizing key with
  | zero => exact fun _ h => nomatch h
  | succ n ih => exact meaning_succ_le (.refl s) (fun _ => rfl) ih key

theorem meaning_mono (h : n ≤ m) (key : DefinitionKey) : Build.Le (meaning r s n key) (meaning r s m key) := by
  induction h with
  | refl => exact .refl _
  | step _ ih => exact fun x hx => meaning_le_succ r s _ key x (ih x hx)

/-- The meaning of a definition, however deep references nest. -/
def Means (r : Registry) (s : Scope) (key : DefinitionKey) (x : Option Component) : Prop :=
  ∃ n, meaning r s n key = .ok x

theorem Means.unique {x y : Option Component} (hx : Means r s key x) (hy : Means r s key y) : x = y := by
  obtain ⟨n, hn⟩ := hx
  obtain ⟨m, hm⟩ := hy
  have h₁ := meaning_mono (Nat.le_max_left n m) key x hn
  have h₂ := meaning_mono (Nat.le_max_right n m) key y hm
  exact Except.ok.inj (h₁.symm.trans h₂)

theorem Means.congr (hs : s.Le s') (hr : ∀ key, r'.item? key = r.item? key) {x : Option Component}
    (h : Means r s key x) : Means r' s' key x := by
  obtain ⟨n, hn⟩ := h
  have hle : ∀ n key, Build.Le (meaning r s n key) (meaning r' s' n key) := by
    intro n
    induction n with
    | zero => exact fun _ _ h => nomatch h
    | succ n ih => exact meaning_succ_le hs hr ih
  exact ⟨n, hle n key x hn⟩

theorem means_none (h : r.item? key = none) : Means r s key none := ⟨1, by rw [meaning, h]⟩

/-! ### Definitions that are referred to -/

/-- The definitions that are being read are different ones, and there is depth enough to open all the others. -/
structure Opening (r : Registry) (depth : Nat) (opened : List DefinitionKey) : Prop where
  nodup : opened.Nodup
  registered : ∀ k ∈ opened, (r.item? k).isSome = true
  depth : r.definitions.length < depth + opened.length

namespace Opening

theorem pos (h : Opening r depth opened) : 0 < depth := by
  have hsubset : opened ⊆ r.definitions.map (·.key) := by
    intro k hk
    obtain ⟨i, hi⟩ := Option.isSome_iff_exists.1 (h.registered k hk)
    obtain ⟨d, hd, rfl, _⟩ := Registry.exists_definition_of_item? hi
    exact List.mem_map_of_mem hd
  have := (h.nodup.subperm hsubset).length_le
  rw [List.length_map] at this
  have := h.depth
  omega

theorem cons (h : Opening r (depth + 1) opened) (hk : key ∉ opened) (hi : (r.item? key).isSome = true) :
    Opening r depth (key :: opened) where
  nodup := List.nodup_cons.2 ⟨hk, h.nodup⟩
  registered := List.forall_mem_cons.2 ⟨hi, h.registered⟩
  depth := by
    have := h.depth
    rw [List.length_cons]
    omega

end Opening

theorem findDefinition_le_meaning (hread : ∀ key c, read.lookup key = some c → meaning r s n key = .ok (some c))
    (hopened : Opening r depth opened) (key : DefinitionKey) :
    Build.Le (findDefinition r s read depth opened key) (meaning r s (n + depth) key) := by
  induction depth generalizing opened key with
  | zero => exact absurd hopened.pos (Nat.lt_irrefl 0)
  | succ depth ih =>
      rw [findDefinition, ← Nat.add_assoc, meaning]
      cases hl : read.lookup key with
      | some c =>
          intro x hx
          have hn := meaning_mono (Nat.le_add_right n (depth + 1)) key _ (hread key c hl)
          rw [← Nat.add_assoc, meaning] at hn
          exact hn.trans hx
      | none =>
          cases hi : r.item? key with
          | none => exact .refl _
          | some i =>
              simp only
              by_cases ho : opened.contains key = true
              · rw [if_pos ho]
                exact fun x hx => by simp at hx
              · rw [if_neg ho]
                have hopened' := hopened.cons (by simpa using ho) (Option.isSome_iff_exists.2 ⟨i, hi⟩)
                exact readDefinition_finding_le (.refl s) (ih hopened') key i

/-- What a definition means is found, if the definitions that are being read need it to be known themselves. -/
theorem meaning_le_findDefinition (hread : ∀ key c, read.lookup key = some c → Means r s key (some c))
    (hopened : Opening r depth opened) (hn : ∀ k ∈ opened, ∀ x, meaning r s n k ≠ .ok x)
    (key : DefinitionKey) : Build.Le (meaning r s n key) (findDefinition r s read depth opened key) := by
  induction n generalizing depth opened key with
  | zero => exact fun _ h => nomatch h
  | succ n ih =>
      have hn' : ∀ k ∈ opened, ∀ x, meaning r s n k ≠ .ok x := fun k hk x hx =>
        hn k hk x (meaning_le_succ r s n k x hx)
      intro x hx
      -- at the least depth at which a definition means something it needs what means something at a lesser one, so
      -- never itself
      by_cases hearlier : meaning r s n key = .ok x
      · exact ih hopened hn' key x hearlier
      obtain ⟨depth, rfl⟩ := Nat.exists_eq_succ_of_ne_zero (Nat.ne_of_gt hopened.pos)
      rw [findDefinition]
      cases hl : read.lookup key with
      | some c => exact congrArg Except.ok ((hread key c hl).unique ⟨n + 1, hx⟩)
      | none =>
          rw [meaning] at hx
          cases hi : r.item? key with
          | none =>
              rw [hi] at hx
              exact hx
          | some i =>
              have hkey : key ∉ opened := fun hmem => hn key hmem x (by rw [meaning]; exact hx)
              have hnew : ∀ y, meaning r s n key ≠ .ok y := by
                intro y hy
                have := Means.unique ⟨n + 1, by rw [meaning]; exact hx⟩ ⟨n, hy⟩
                exact hearlier (this ▸ hy)
              have hopened' := hopened.cons hkey (Option.isSome_iff_exists.2 ⟨i, hi⟩)
              rw [hi] at hx
              simp only
              rw [if_neg (by simpa using hkey)]
              refine readDefinition_finding_le (.refl s) (fun key' => ?_) key i x hx
              exact ih hopened' (List.forall_mem_cons.2 ⟨hnew, hn'⟩) key'

/-! ### All definitions -/

/-- A table tells what every definition means. -/
def Settles (r : Registry) (s : Scope) (table : DefinitionKey → Option Component) : Prop :=
  ∀ key, Means r s key (table key)

def Scope.knowing (s : Scope) (table : DefinitionKey → Option Component) : Scope :=
  { s with definition? := fun key => .ok (table key) }

variable {table : DefinitionKey → Option Component} {t t' : Traces}

namespace Settles

theorem congr (h : Settles r s table) (hs : s.Le s') (hr : ∀ key, r'.item? key = r.item? key) : Settles r' s' table :=
  fun key => (h key).congr hs hr

theorem meaning_le (h : Settles r s table) (n : Nat) (key : DefinitionKey) :
    Build.Le (meaning r s n key) (.ok (table key)) :=
  fun _ hx => congrArg Except.ok ((h key).unique ⟨n, hx⟩)

theorem eq_none (h : Settles r s table) (hi : r.item? key = none) : table key = none := (h key).unique (means_none hi)

/-- Each definition is known by what reading it yields when all definitions are known. -/
theorem reading (h : Settles r s table) {i : Item} (hi : r.item? key = some i) :
    ∃ c left, table key = some c ∧ readDefinition (s.knowing table) key i {} = .ok (c, left) := by
  obtain ⟨n, hn⟩ := h key
  cases n with
  | zero => exact nomatch hn
  | succ n =>
      rw [meaning, hi] at hn
      obtain ⟨⟨c, t'⟩, hc, hn⟩ := Build.bind_eq_ok.1 hn
      obtain ⟨left, _, hleft⟩ := (readDefinition_le (Scope.Le.finding (.refl s) (h.meaning_le n)) key i).to_empty hc
      exact ⟨c, left, (Except.ok.inj hn).symm, hleft⟩

end Settles

theorem readDefinitions_means (hread : ∃ n, ∀ key c, read.lookup key = some c → meaning r s n key = .ok (some c))
    {keys : List DefinitionKey} {read' : List (DefinitionKey × Component)}
    (h : readDefinitions r s read keys t = .ok (read', t')) :
    ∃ n, ∀ key c, read'.lookup key = some c → meaning r s n key = .ok (some c) := by
  induction keys generalizing read t with
  | nil =>
      rw [readDefinitions, Reading.pure_eq_ok] at h
      exact h.1 ▸ hread
  | cons key keys ih =>
      rw [readDefinitions] at h
      cases hi : r.item? key with
      | none =>
          simp only [hi] at h
          exact ih hread h
      | some i =>
          simp only [hi, Reading.bind_eq_ok] at h
          obtain ⟨c, t₁, hc, h⟩ := h
          obtain ⟨n, hn⟩ := hread
          have hopened : Opening r (r.definitions.length + 1) [key] :=
            ⟨List.nodup_singleton key, by simp [hi], by rw [List.length_singleton]; omega⟩
          have hmeans : meaning r s (n + (r.definitions.length + 1) + 1) key = .ok (some c) := by
            have hfind := findDefinition_le_meaning hn hopened
            obtain ⟨left, _, hleft⟩ := (readDefinition_le (Scope.Le.finding (.refl s) hfind) key i).to_empty hc
            rw [meaning, hi]
            exact Build.bind_eq_ok.2 ⟨_, hleft, rfl⟩
          refine ih ⟨n + (r.definitions.length + 1) + 1, fun key' c' hl => ?_⟩ h
          rw [List.lookup_cons] at hl
          split at hl
          · next he =>
              cases hl
              rw [eq_of_beq he]
              exact hmeans
          · exact meaning_mono (by omega) key' _ (hn key' c' hl)

theorem readDefinitions_covers {keys : List DefinitionKey} {read' : List (DefinitionKey × Component)}
    (h : readDefinitions r s read keys t = .ok (read', t')) :
    (∀ key, (read.lookup key).isSome = true → (read'.lookup key).isSome = true) ∧
      ∀ key ∈ keys, (r.item? key).isSome = true → (read'.lookup key).isSome = true := by
  induction keys generalizing read t with
  | nil =>
      rw [readDefinitions, Reading.pure_eq_ok] at h
      obtain ⟨rfl, _⟩ := h
      exact ⟨fun _ hk => hk, by simp⟩
  | cons key keys ih =>
      rw [readDefinitions] at h
      cases hi : r.item? key with
      | none =>
          simp only [hi] at h
          obtain ⟨hkeep, hkeys⟩ := ih h
          exact ⟨hkeep, List.forall_mem_cons.2 ⟨by simp [hi], hkeys⟩⟩
      | some i =>
          simp only [hi, Reading.bind_eq_ok] at h
          obtain ⟨c, t₁, _, h⟩ := h
          obtain ⟨hkeep, hkeys⟩ := ih h
          refine ⟨fun key' hk => hkeep key' ?_, List.forall_mem_cons.2 ⟨fun _ => hkeep key ?_, hkeys⟩⟩
          · rw [List.lookup_cons]
            split
            · rfl
            · exact hk
          · rw [List.lookup_cons_self]
            rfl

/-- Once all definitions have been read, it is known what each of them means. -/
theorem readDefinitions_settles {order : List DefinitionKey} (horder : ∀ d ∈ r.definitions, d.key ∈ order)
    (h : readDefinitions r s [] order t = .ok (read, t')) : Settles r s (fun key => read.lookup key) := by
  obtain ⟨n, hn⟩ := readDefinitions_means ⟨0, by simp⟩ h
  intro key
  dsimp only
  cases hl : read.lookup key with
  | some c => exact ⟨n, hn key c hl⟩
  | none =>
      refine means_none ?_
      by_contra hi
      obtain ⟨i, hi⟩ := Option.ne_none_iff_exists'.1 hi
      obtain ⟨d, hd, rfl, _⟩ := Registry.exists_definition_of_item? hi
      have := (readDefinitions_covers h).2 d.key (horder d hd) (by simp [hi])
      rw [hl] at this
      exact nomatch this

theorem scopeOf_eq_knowing (h : Settles r s fun key => read.lookup key) :
    scopeOf r s read [] = s.knowing fun key => read.lookup key := by
  rw [scopeOf, Scope.knowing]
  congr 1
  funext key
  rw [findDefinition]
  cases hl : read.lookup key with
  | some c => rfl
  | none =>
      cases hi : r.item? key with
      | none => rfl
      | some i =>
          obtain ⟨c, left, hc, _⟩ := h.reading hi
          cases hl.symm.trans hc

/-! ### What definitions leave behind -/

/-- What reading a definition leaves behind. -/
def tracesOf (r : Registry) (s : Scope) (table : DefinitionKey → Option Component) (key : DefinitionKey) : Traces :=
  match r.item? key with
  | none => {}
  | some i =>
    match readDefinition (s.knowing table) key i {} with
    | .ok (_, left) => left
    | .error _ => {}

theorem exists_first_depth {x : Option Component} (h : meaning r s n key = .ok x) :
    ∃ m, (∀ y, meaning r s m key ≠ .ok y) ∧ meaning r s (m + 1) key = .ok x := by
  induction n with
  | zero => exact nomatch h
  | succ n ih =>
      by_cases hn : meaning r s n key = .ok x
      · exact ih hn
      · refine ⟨n, fun y hy => hn ?_, h⟩
        rwa [Means.unique ⟨n + 1, h⟩ ⟨n, hy⟩]

/-- Whatever has been read before, reading a definition in its turn yields what it means and leaves the same behind. -/
theorem Settles.readDefinition_scopeOf (h : Settles r s table)
    (hread : ∀ key c, read.lookup key = some c → Means r s key (some c)) {i : Item} (hi : r.item? key = some i) :
    ∃ c, table key = some c ∧
      ∀ t, readDefinition (scopeOf r s read [key]) key i t = .ok (c, tracesOf r s table key ++ t) := by
  obtain ⟨n, hn⟩ := h key
  obtain ⟨m, hm, hn⟩ := exists_first_depth hn
  rw [meaning, hi] at hn
  obtain ⟨⟨c, t'⟩, hc, hn⟩ := Build.bind_eq_ok.1 hn
  have hopened : Opening r (r.definitions.length + 1) [key] :=
    ⟨List.nodup_singleton key, by simp [hi], by rw [List.length_singleton]; omega⟩
  have hfind := meaning_le_findDefinition (n := m) hread hopened (by simpa using hm)
  have hknow : readDefinition (s.knowing table) key i {} = .ok (c, t') := by
    rw [← Traces.append_empty t']
    exact (readDefinition_le (Scope.Le.finding (.refl s) (h.meaning_le m)) key i).from_empty hc {}
  refine ⟨c, (Except.ok.inj hn).symm, fun t => ?_⟩
  rw [tracesOf, hi]
  simp only [hknow]
  exact (readDefinition_le (Scope.Le.finding (.refl s) hfind) key i).from_empty hc t

theorem Settles.readDefinitions (h : Settles r s table) (keys : List DefinitionKey)
    (hread : ∀ key c, read.lookup key = some c → Means r s key (some c)) (t : Traces) :
    ∃ read', Schema.readDefinitions r s read keys t =
      .ok (read', keys.foldl (fun t key => tracesOf r s table key ++ t) t) := by
  induction keys generalizing read t with
  | nil => exact ⟨read, rfl⟩
  | cons key keys ih =>
      rw [Schema.readDefinitions, List.foldl_cons]
      cases hi : r.item? key with
      | none =>
          have hleft : tracesOf r s table key = {} := by rw [tracesOf, hi]
          rw [hleft]
          exact ih hread t
      | some i =>
          obtain ⟨c, hc, hdefinition⟩ := h.readDefinition_scopeOf hread hi
          have hread' : ∀ key' c', ((key, c) :: read).lookup key' = some c' → Means r s key' (some c') := by
            intro key' c' hl
            rw [List.lookup_cons] at hl
            split at hl
            · next he =>
                cases hl
                rw [eq_of_beq he, ← hc]
                exact h key
            · exact hread key' c' hl
          obtain ⟨read', hlater⟩ := ih hread' (tracesOf r s table key ++ t)
          exact ⟨read', Reading.bind_eq_ok.2 ⟨c, _, hdefinition t, hlater⟩⟩

theorem Settles.readDefinitions_all (h : Settles r s table) {order : List DefinitionKey}
    (horder : ∀ d ∈ r.definitions, d.key ∈ order) :
    ∃ read, Schema.readDefinitions r s [] order {} =
        .ok (read, order.foldl (fun t key => tracesOf r s table key ++ t) {}) ∧
      (fun key => read.lookup key) = table := by
  obtain ⟨read, hread⟩ : ∃ read, Schema.readDefinitions r s [] order {} = .ok (read, _) :=
    h.readDefinitions order (by simp) {}
  exact ⟨read, hread, funext fun key => (readDefinitions_settles horder hread key).unique (h key)⟩

end XmlSchema.Schema
