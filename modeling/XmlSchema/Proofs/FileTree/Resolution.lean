import XmlSchema.FileTree.Canonical

/-!
Where a path leads when every link in it is replaced by where that leads. There is at most one such place, and none
where a link leads back to itself.
-/

namespace XmlSchema.FileTree

/-- A step that is taken to what stands under that name. -/
def IsName (step : Text) : Prop := isIdle step = false ∧ isUpward step = false

/-- A place without links on the way to it. -/
structure IsCanonical (tree : FileTree) (place : Place) : Prop where
  names : ∀ step ∈ place, IsName step
  unlinked : ∀ front step, front ++ [step] <+: place → ∀ target, tree.at? (front ++ [step]) ≠ some (.link target)

/-- Steps lead from a place to another one over so many links. What they name need not exist. -/
inductive LeadsOver (tree : FileTree) : Nat → Place → Steps → Place → Prop
  | here (place : Place) : LeadsOver tree 0 place [] place
  | idle {n : Nat} {place found : Place} {step : Text} {rest : Steps} (hstep : isIdle step = true)
      (hrest : LeadsOver tree n place rest found) : LeadsOver tree n place (step :: rest) found
  | upward {n : Nat} {place found : Place} {step : Text} {rest : Steps} (hidle : isIdle step = false)
      (hstep : isUpward step = true) (hrest : LeadsOver tree n place.dropLast rest found) :
      LeadsOver tree n place (step :: rest) found
  | name {n : Nat} {place found : Place} {step : Text} {rest : Steps} (hstep : IsName step)
      (hat : ∀ target, tree.at? (place ++ [step]) ≠ some (.link target))
      (hrest : LeadsOver tree n (place ++ [step]) rest found) : LeadsOver tree n place (step :: rest) found
  | link {m n : Nat} {place inner found : Place} {step : Text} {rest : Steps} {target : Text} (hstep : IsName step)
      (hat : tree.at? (place ++ [step]) = some (.link target))
      (htarget : LeadsOver tree m (start place target) (steps target) inner)
      (hrest : LeadsOver tree n inner rest found) : LeadsOver tree (m + n + 1) place (step :: rest) found

/-- Steps lead from a place to another one, every link on the way replaced by where it leads. -/
def Leads (tree : FileTree) (place : Place) (path : Steps) (found : Place) : Prop :=
  ∃ n, tree.LeadsOver n place path found

variable {tree : FileTree} {place found : Place} {path : Steps} {n : Nat}

/-! ### Canonical places -/

theorem IsCanonical.nil : tree.IsCanonical [] where
  names := by simp
  unlinked front step h := by simp at h

theorem IsCanonical.of_prefix {front : Place} (h : tree.IsCanonical place) (hfront : front <+: place) :
    tree.IsCanonical front where
  names step hstep := h.names step (hfront.subset hstep)
  unlinked above step habove := h.unlinked above step (habove.trans hfront)

theorem IsCanonical.append {step : Text} (h : tree.IsCanonical place) (hstep : IsName step)
    (hat : ∀ target, tree.at? (place ++ [step]) ≠ some (.link target)) : tree.IsCanonical (place ++ [step]) where
  names other hother := by
    rcases List.mem_append.1 hother with hother | hother
    · exact h.names other hother
    · obtain rfl := List.mem_singleton.1 hother
      exact hstep
  unlinked front other hfront := by
    rcases List.prefix_concat_iff.1 hfront with heq | hfront
    · rw [heq]
      exact hat
    · exact h.unlinked front other hfront

theorem IsCanonical.start (h : tree.IsCanonical place) (target : Text) : tree.IsCanonical (start place target) := by
  rw [FileTree.start]
  split
  · exact .nil
  · exact h

/-- Steps lead to a place without links on the way to it. -/
theorem LeadsOver.isCanonical (h : tree.LeadsOver n place path found) (hplace : tree.IsCanonical place) :
    tree.IsCanonical found := by
  induction h with
  | here => exact hplace
  | idle _ _ ih => exact ih hplace
  | upward _ _ _ ih => exact ih (hplace.of_prefix (List.dropLast_prefix _))
  | name hstep hat _ ih => exact ih (hplace.append hstep hat)
  | link _ _ _ _ ihtarget ihrest => exact ihrest (ihtarget (hplace.start _))

/-- A place without links on the way is where its own names lead. -/
theorem IsCanonical.leads (h : tree.IsCanonical found) : tree.Leads [] found found := by
  have hfrom (rest front : Place) (hfront : front ++ rest = found) : tree.LeadsOver 0 front rest found := by
    induction rest generalizing front with
    | nil =>
        obtain rfl : front = found := by simpa using hfront
        exact .here front
    | cons step rest ih =>
        have hprefix : front ++ [step] <+: found := ⟨rest, by simpa using hfront⟩
        exact .name (h.names step (by simp [← hfront])) (h.unlinked front step hprefix)
          (ih (front ++ [step]) (by simpa using hfront))
  exact ⟨0, hfrom found [] rfl⟩

/-! ### Where steps lead is unique -/

theorem LeadsOver.unique {m : Nat} {other : Place} (h : tree.LeadsOver n place path found)
    (h' : tree.LeadsOver m place path other) : n = m ∧ found = other := by
  induction h generalizing m other with
  | here =>
      cases h'
      exact ⟨rfl, rfl⟩
  | idle hstep _ ih =>
      cases h' with
      | idle _ hrest => exact ih hrest
      | upward hidle => simp [hstep] at hidle
      | name hname | link hname => simp [IsName, hstep] at hname
  | upward hidle hstep _ ih =>
      cases h' with
      | idle hidle' => simp [hidle] at hidle'
      | upward _ _ hrest => exact ih hrest
      | name hname | link hname => simp [IsName, hstep] at hname
  | name hstep hat _ ih =>
      cases h' with
      | idle hidle => simp [hstep.1] at hidle
      | upward _ hup => simp [hstep.2] at hup
      | name _ _ hrest => exact ih hrest
      | link _ hat' => exact absurd hat' (hat _)
  | link hstep hat _ _ ihtarget ihrest =>
      cases h' with
      | idle hidle => simp [hstep.1] at hidle
      | upward _ hup => simp [hstep.2] at hup
      | name _ hat' => exact absurd hat (hat' _)
      | link _ hat' htarget hrest =>
          obtain rfl := FileTree.link.inj (Option.some.inj (hat.symm.trans hat'))
          obtain ⟨rfl, rfl⟩ := ihtarget htarget
          obtain ⟨rfl, rfl⟩ := ihrest hrest
          exact ⟨rfl, rfl⟩

theorem Leads.unique {other : Place} (h : tree.Leads place path found) (h' : tree.Leads place path other) :
    found = other := by
  obtain ⟨_, h⟩ := h
  obtain ⟨_, h'⟩ := h'
  exact (h.unique h').2

/-- Steps lead behind others where they lead from the place that the others lead to. -/
theorem Leads.append_iff {later : Steps} : tree.Leads place (path ++ later) found ↔
    ∃ middle, tree.Leads place path middle ∧ tree.Leads middle later found := by
  constructor
  · rintro ⟨n, h⟩
    induction path generalizing place n with
    | nil => exact ⟨place, ⟨0, .here place⟩, n, h⟩
    | cons step path ih =>
        cases h with
        | idle hstep hrest =>
            obtain ⟨middle, ⟨m, hm⟩, hlater⟩ := ih _ hrest
            exact ⟨middle, ⟨m, .idle hstep hm⟩, hlater⟩
        | upward hidle hstep hrest =>
            obtain ⟨middle, ⟨m, hm⟩, hlater⟩ := ih _ hrest
            exact ⟨middle, ⟨m, .upward hidle hstep hm⟩, hlater⟩
        | name hstep hat hrest =>
            obtain ⟨middle, ⟨m, hm⟩, hlater⟩ := ih _ hrest
            exact ⟨middle, ⟨m, .name hstep hat hm⟩, hlater⟩
        | link hstep hat htarget hrest =>
            obtain ⟨middle, ⟨m, hm⟩, hlater⟩ := ih _ hrest
            exact ⟨middle, ⟨_, .link hstep hat htarget hm⟩, hlater⟩
  · rintro ⟨middle, ⟨n, h⟩, m, hlater⟩
    induction h with
    | here => exact ⟨m, hlater⟩
    | idle hstep _ ih =>
        obtain ⟨k, hk⟩ := ih hlater
        exact ⟨k, .idle hstep hk⟩
    | upward hidle hstep _ ih =>
        obtain ⟨k, hk⟩ := ih hlater
        exact ⟨k, .upward hidle hstep hk⟩
    | name hstep hat _ ih =>
        obtain ⟨k, hk⟩ := ih hlater
        exact ⟨k, .name hstep hat hk⟩
    | link hstep hat htarget _ _ ih =>
        obtain ⟨k, hk⟩ := ih hlater
        exact ⟨_, .link hstep hat htarget hk⟩

/-- Steps that stay where they are do not count. -/
theorem Leads.filter (h : tree.Leads place path found) :
    tree.Leads place (path.filter fun step => !isIdle step) found := by
  obtain ⟨n, h⟩ := h
  refine ⟨n, ?_⟩
  -- Targets of links stay as they are: only the steps at the outside lose something.
  induction h with
  | here => exact .here _
  | idle hstep _ ih => simpa [hstep] using ih
  | upward hidle hstep _ ih =>
      rw [List.filter_cons_of_pos (by simp [hidle])]
      exact .upward hidle hstep ih
  | name hstep hat _ ih =>
      rw [List.filter_cons_of_pos (by simp [hstep.1])]
      exact .name hstep hat ih
  | link hstep hat htarget _ _ ih =>
      rw [List.filter_cons_of_pos (by simp [hstep.1])]
      exact .link hstep hat htarget ih

end XmlSchema.FileTree
