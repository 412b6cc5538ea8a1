import XmlSchema.Proofs.FileTree.Entries

/-!
A tree without its dead links, which are broken or lead back to themselves. Taking them out changes nothing else: every
path leads to the same place as before, and a walk that is not given up goes the same way. What is left has no loops.
-/

namespace XmlSchema.FileTree

def isLive (tree : FileTree) (origin : Place) : Bool :=
  match tree.canonicalExisting origin with
  | .ok _ => true
  | .error _ => false

mutual

/-- What is kept of what stands at a place: links only if they are live. -/
def kept? (live : Place → Bool) (place : Place) : FileTree → Option FileTree
  | file content => some (file content)
  | link target => if live place then some (link target) else none
  | directory entries => some (directory (keptIn live place entries))

def keptIn (live : Place → Bool) (place : Place) : List (Text × FileTree) → List (Text × FileTree)
  | [] => []
  | (name, tree) :: entries =>
    match kept? live (place ++ [name]) tree with
    | some tree => (name, tree) :: keptIn live place entries
    | none => keptIn live place entries

end

/-- The tree without links that lead to nothing. -/
def withoutDeadLinks (tree : FileTree) : FileTree := (kept? tree.isLive [] tree).getD empty

variable {tree kept : FileTree} {live : Place → Bool} {place found front : Place} {path : Steps} {name : Text}
  {entries : List (Text × FileTree)}

/-! ### What is kept -/

theorem isLive_iff : tree.isLive place = true ↔ ∃ found, tree.Finds [] place found := by
  simp only [isLive, ← canonicalExisting_eq_ok_iff]
  cases tree.canonicalExisting place <;> simp

theorem kept?_cases (h : kept? live place tree = some kept) :
    (∃ content, tree = file content ∧ kept = file content) ∨
      (∃ target, tree = link target ∧ kept = link target ∧ live place = true) ∨
      ∃ entries, tree = directory entries ∧ kept = directory (keptIn live place entries) := by
  cases tree with
  | file content => exact .inl ⟨content, rfl, (Option.some.inj h).symm⟩
  | link target =>
      by_cases hlive : live place = true
      · rw [kept?, if_pos hlive] at h
        exact .inr (.inl ⟨target, rfl, (Option.some.inj h).symm, hlive⟩)
      · rw [kept?, if_neg hlive] at h
        cases h
  | directory entries => exact .inr (.inr ⟨entries, rfl, (Option.some.inj h).symm⟩)

/-- A link is kept as it is, and nothing else is kept as a link. -/
theorem kept?_eq_some_link {target : Text} : kept? live place tree = some (link target) ↔
    tree = link target ∧ live place = true := by
  cases tree with
  | file | directory => simp [kept?]
  | link other => by_cases hlive : live place <;> simp [kept?, hlive]

theorem exists_kept (live : Place → Bool) (place : Place) (hplain : ∀ target, tree ≠ link target) :
    ∃ kept, kept? live place tree = some kept := by
  cases tree with
  | file content => exact ⟨_, rfl⟩
  | link target => exact absurd rfl (hplain target)
  | directory entries => exact ⟨_, rfl⟩

theorem keptIn_eq (entries : List (Text × FileTree)) : keptIn live place entries =
    entries.filterMap fun item => (kept? live (place ++ [item.1]) item.2).map (Prod.mk item.1) := by
  induction entries with
  | nil => rfl
  | cons item entries ih =>
      rw [keptIn, ih, List.filterMap_cons]
      cases kept? live (place ++ [item.1]) item.2 <;> rfl

theorem map_fst_keptIn_sublist (entries : List (Text × FileTree)) :
    ((keptIn live place entries).map Prod.fst).Sublist (entries.map Prod.fst) := by
  induction entries with
  | nil => exact List.nil_sublist _
  | cons item entries ih =>
      rw [keptIn]
      cases kept? live (place ++ [item.1]) item.2 with
      | none => exact ih.cons _
      | some below => exact ih.cons_cons _

theorem lookup_keptIn (hnodup : (entries.map Prod.fst).Nodup) (name : Text) :
    (keptIn live place entries).lookup name = (entries.lookup name).bind (kept? live (place ++ [name])) := by
  induction entries with
  | nil => rfl
  | cons item entries ih =>
      obtain ⟨other, below⟩ := item
      obtain ⟨hother, hlater⟩ := List.nodup_cons.1 hnodup
      have hih := ih hlater
      rw [keptIn, List.lookup_cons]
      by_cases hname : name = other
      · subst hname
        have hnone : entries.lookup name = none := by
          refine List.lookup_eq_none_iff.2 fun later hmem => bne_iff_ne.2 ?_
          rintro rfl
          exact hother (List.mem_map.2 ⟨later, hmem, rfl⟩)
        rw [hnone] at hih
        cases hkept : kept? live (place ++ [name]) below with
        | none => simpa only [beq_self_eq_true, Option.bind_some, Option.bind_none, hkept] using hih
        | some kept => simp [hkept]
      · have hbeq : (name == other) = false := beq_eq_false_iff_ne.2 hname
        cases kept? live (place ++ [other]) below with
        | none => simp [hih, hbeq]
        | some kept => simp [List.lookup_cons, hih, hbeq]

mutual

theorem isProper_kept : (tree : FileTree) → {place : Place} → {kept : FileTree} → tree.isProper = true →
    kept? live place tree = some kept → kept.isProper = true
  | file content, place, kept, _, h => by
      obtain rfl := Option.some.inj h
      rfl
  | link target, place, kept, _, h => by
      rw [kept?] at h
      split at h
      · obtain rfl := Option.some.inj h
        rfl
      · cases h
  | directory entries, place, kept, hproper, h => by
      obtain rfl := Option.some.inj h
      rw [isProper, Bool.and_eq_true, decide_eq_true_iff] at hproper ⊢
      exact ⟨hproper.1.sublist (map_fst_keptIn_sublist entries), areProper_kept entries hproper.2⟩

theorem areProper_kept : (entries : List (Text × FileTree)) → {place : Place} → areProper entries = true →
    areProper (keptIn live place entries) = true
  | [], _, _ => rfl
  | (name, tree) :: entries, place, h => by
      rw [areProper, Bool.and_eq_true, Bool.and_eq_true] at h
      obtain ⟨⟨hlegal, hproper⟩, hentries⟩ := h
      rw [keptIn]
      split
      · next kept hkept =>
          rw [areProper, hlegal, isProper_kept tree hproper hkept, areProper_kept entries hentries]
          rfl
      · exact areProper_kept entries hentries

end

theorem child?_kept (hproper : tree.isProper = true) (h : kept? live place tree = some kept) (name : Text) :
    kept.child? name = (tree.child? name).bind (kept? live (place ++ [name])) := by
  obtain ⟨content, rfl, rfl⟩ | ⟨target, rfl, rfl, _⟩ | ⟨entries, rfl, rfl⟩ := kept?_cases h
  · rfl
  · rfl
  · exact lookup_keptIn (isProper_directory_iff.1 hproper).1 name

theorem at?_kept (hproper : tree.isProper = true) (h : kept? live front tree = some kept) (place : Place) :
    kept.at? place = (tree.at? place).bind (kept? live (front ++ place)) := by
  induction place generalizing tree front kept with
  | nil => simpa [at?] using h.symm
  | cons name place ih =>
      rw [at?, at?, child?_kept hproper h]
      cases hbelow : tree.child? name with
      | none => rfl
      | some below =>
          obtain ⟨entries, rfl, hmem⟩ := mem_of_child? hbelow
          have hproper' := ((isProper_directory_iff.1 hproper).2 _ hmem).2
          cases hkept : kept? live (front ++ [name]) below with
          | some kept' => simpa [hkept] using ih hproper' hkept
          | none =>
              by_cases hplain : ∃ target, below = link target
              · obtain ⟨target, rfl⟩ := hplain
                -- Beneath a link nothing stands.
                cases place with
                | nil => simp [at?, hkept]
                | cons => simp [at?, child?, hkept]
              · obtain ⟨kept', hkept'⟩ := exists_kept live (front ++ [name]) fun target htarget =>
                  hplain ⟨target, htarget⟩
                rw [hkept] at hkept'
                cases hkept'

theorem kept?_top (tree : FileTree) : kept? tree.isLive [] tree = some tree.withoutDeadLinks := by
  have hlive : tree.isLive [] = true := isLive_iff.2 ⟨[], .here []⟩
  cases tree with
  | file | directory => rfl
  | link target => simp [withoutDeadLinks, kept?, hlive]

theorem at?_withoutDeadLinks (hproper : tree.isProper = true) (place : Place) :
    tree.withoutDeadLinks.at? place = (tree.at? place).bind (kept? tree.isLive place) :=
  at?_kept hproper (kept?_top tree) place

theorem isProper_withoutDeadLinks (hproper : tree.isProper = true) : tree.withoutDeadLinks.isProper = true :=
  isProper_kept tree hproper (kept?_top tree)

/-! ### Where paths lead -/

/-- Walks begin and go on at places that are found by their own names. -/
theorem Finds.self_start (h : tree.Finds [] place place) (target : Text) :
    tree.Finds [] (start place target) (start place target) := by
  rw [start]
  split
  · exact .here []
  · exact h

theorem Finds.step_self {step : Text} (h : tree.Finds [] place place) (hstep : tree.Finds place [step] found) :
    tree.Finds [] found found := (Finds.append_iff.2 ⟨place, h, hstep⟩).self

theorem isLive_of_finds {target : Text} {inner : Place} (h : tree.Finds [] place place) (hname : IsName name)
    (hat : tree.at? (place ++ [name]) = some (link target))
    (htarget : tree.Finds (start place target) (steps target) inner) : tree.isLive (place ++ [name]) = true :=
  isLive_iff.2 ⟨inner, Finds.append_iff.2 ⟨place, h, .link hname hat htarget (.here inner)⟩⟩

theorem at?_withoutDeadLinks_link (hproper : tree.isProper = true) {target : Text} :
    tree.withoutDeadLinks.at? place = some (link target) ↔
      tree.at? place = some (link target) ∧ tree.isLive place = true := by
  rw [at?_withoutDeadLinks hproper, Option.bind_eq_some_iff]
  constructor
  · rintro ⟨what, hat, hkept⟩
    obtain ⟨rfl, hlive⟩ := kept?_eq_some_link.1 hkept
    exact ⟨hat, hlive⟩
  · rintro ⟨hat, hlive⟩
    exact ⟨_, hat, kept?_eq_some_link.2 ⟨rfl, hlive⟩⟩

theorem Finds.withoutDeadLinks (hproper : tree.isProper = true) (h : tree.Finds place path found)
    (hplace : tree.Finds [] place place) : tree.withoutDeadLinks.Finds place path found := by
  induction h with
  | here place => exact .here place
  | idle hstep _ ih => exact .idle hstep (ih hplace)
  | upward hidle hstep _ ih =>
      exact .upward hidle hstep (ih (hplace.step_self (.upward hidle hstep (.here _))))
  | @name place _ step _ entry hstep hat hentry _ ih =>
      obtain ⟨kept, hkept⟩ := exists_kept tree.isLive (place ++ [step]) hentry
      have hat' : tree.withoutDeadLinks.at? (place ++ [step]) = some kept := by
        rw [at?_withoutDeadLinks hproper, hat, Option.bind_some, hkept]
      refine .name hstep hat' (fun target htarget => ?_) (ih (hplace.step_self (.name hstep hat hentry (.here _))))
      subst htarget
      exact hentry target (kept?_eq_some_link.1 hkept).1
  | link hstep hat htarget _ ihtarget ihrest =>
      exact .link hstep ((at?_withoutDeadLinks_link hproper).2 ⟨hat, isLive_of_finds hplace hstep hat htarget⟩)
        (ihtarget (hplace.self_start _)) (ihrest (hplace.step_self (.link hstep hat htarget (.here _))))

theorem Finds.of_withoutDeadLinks (hproper : tree.isProper = true) (h : tree.withoutDeadLinks.Finds place path found) :
    tree.Finds place path found := by
  induction h with
  | here place => exact .here place
  | idle hstep _ ih => exact .idle hstep ih
  | upward hidle hstep _ ih => exact .upward hidle hstep ih
  | name hstep hat hentry _ ih =>
      rw [at?_withoutDeadLinks hproper, Option.bind_eq_some_iff] at hat
      obtain ⟨what, hat, hkept⟩ := hat
      refine .name hstep hat (fun target htarget => ?_) ih
      obtain ⟨content, rfl, _⟩ | ⟨target', _, rfl, _⟩ | ⟨entries, rfl, _⟩ := kept?_cases hkept
      · cases htarget
      · exact hentry target' rfl
      · cases htarget
  | link hstep hat _ _ ihtarget ihrest =>
      exact .link hstep ((at?_withoutDeadLinks_link hproper).1 hat).1 ihtarget ihrest

/-- Every path leads to the same place as before. -/
theorem finds_withoutDeadLinks_iff (hproper : tree.isProper = true) :
    tree.withoutDeadLinks.Finds [] path found ↔ tree.Finds [] path found :=
  ⟨Finds.of_withoutDeadLinks hproper, fun h => h.withoutDeadLinks hproper (.here [])⟩

theorem canonicalExisting_withoutDeadLinks (hproper : tree.isProper = true) :
    tree.withoutDeadLinks.canonicalExisting path = .ok found ↔ tree.canonicalExisting path = .ok found := by
  rw [canonicalExisting_eq_ok_iff, canonicalExisting_eq_ok_iff, finds_withoutDeadLinks_iff hproper]

theorem isLoopFree_withoutDeadLinks (hproper : tree.isProper = true) : tree.withoutDeadLinks.IsLoopFree := by
  refine isLoopFree_of_links (isProper_withoutDeadLinks hproper) fun origin target hat => ?_
  obtain ⟨found, hfound⟩ := isLive_iff.1 ((at?_withoutDeadLinks_link hproper).1 hat).2
  exact ⟨found, (hfound.withoutDeadLinks hproper (.here [])).leads⟩

/-! ### What a walk reaches -/

theorem followSteps_withoutDeadLinks (hproper : tree.isProper = true)
    {enter enter' : Place → Steps → Except Fault Place}
    (hfinds : ∀ place path found, enter place path = .ok found → tree.Finds place path found)
    (henter : ∀ place path found, tree.Finds [] place place →
      (enter' place path = .ok found ↔ enter place path = .ok found))
    (hplace : tree.Finds [] place place) :
    followSteps tree.withoutDeadLinks enter' place path = .ok found ↔
      followSteps tree enter place path = .ok found := by
  induction path generalizing place with
  | nil => rfl
  | cons step path ih =>
      rw [followSteps, followSteps, at?_withoutDeadLinks hproper place]
      obtain ⟨below, hbelow⟩ := hplace.exists_at? ⟨tree, rfl⟩
      cases below with
      | file content => simp [hbelow, kept?]
      | link target => by_cases hlive : tree.isLive place <;> simp [hbelow, kept?, hlive]
      | directory entries =>
          simp only [hbelow, Option.bind_some, kept?]
          split
          · exact ih hplace
          · next hidle =>
              split
              · next hup => exact ih (hplace.step_self (.upward (by simpa using hidle) hup (.here _)))
              · next hup =>
                  have hstep : IsName step := ⟨by simpa using hidle, by simpa using hup⟩
                  split
                  · simp
                  · rw [at?_withoutDeadLinks hproper (place ++ [step])]
                    cases hat : tree.at? (place ++ [step]) with
                    | none => simp
                    | some entry =>
                        cases entry with
                        | file content => exact ih (hplace.step_self (.name hstep hat (by simp) (.here _)))
                        | directory entries => exact ih (hplace.step_self (.name hstep hat (by simp) (.here _)))
                        | link target =>
                            by_cases hlive : tree.isLive (place ++ [step])
                            · simpa only [Option.bind_some, kept?, hlive, if_true] using
                                henter _ _ _ (hplace.self_start target)
                            · simp only [Option.bind_some, kept?, hlive, Bool.false_eq_true, if_false, reduceCtorEq,
                                false_iff]
                              -- A link that is entered with success leads somewhere.
                              intro hentered
                              obtain ⟨inner, htarget, _⟩ := Finds.append_iff.1 (hfinds _ _ _ hentered)
                              exact hlive (isLive_of_finds hplace hstep hat htarget)

theorem follow_withoutDeadLinks (hproper : tree.isProper = true) {links : Nat} (hplace : tree.Finds [] place place) :
    tree.withoutDeadLinks.follow links place path = .ok found ↔ tree.follow links place path = .ok found := by
  induction links generalizing place path found with
  | zero => exact followSteps_withoutDeadLinks hproper (by simp) (by simp) hplace
  | succ links ih =>
      exact followSteps_withoutDeadLinks hproper (fun _ _ _ h => finds_of_follow h) (fun _ _ _ h => ih h) hplace

theorem locate_withoutDeadLinks (hproper : tree.isProper = true) :
    tree.withoutDeadLinks.locate path = .ok found ↔ tree.locate path = .ok found := by
  rw [locate, locate]
  split
  · rfl
  · exact follow_withoutDeadLinks hproper (.here [])

theorem reach_eq_ok_iff {what : FileTree} : tree.reach path = .ok what ↔
    ∃ place, tree.locate path = .ok place ∧ tree.at? place = some what := by
  rw [FileTree.reach]
  cases tree.locate path with
  | error fault => simp [bind, Except.bind]
  | ok place =>
      simp only [bind, Except.bind, Except.ok.injEq, exists_eq_left']
      cases tree.at? place <;> simp [pure, Except.pure, throw, throwThe, MonadExceptOf.throw]

/-- What is reached without the dead links is what is kept of what is reached with them. -/
theorem reach_withoutDeadLinks (hproper : tree.isProper = true) : tree.withoutDeadLinks.reach path = .ok kept ↔
    ∃ place what, tree.Finds [] path place ∧ tree.reach path = .ok what ∧ tree.at? place = some what ∧
      kept? tree.isLive place what = some kept := by
  rw [reach_eq_ok_iff]
  constructor
  · rintro ⟨place, hlocate, hat⟩
    rw [locate_withoutDeadLinks hproper] at hlocate
    rw [at?_withoutDeadLinks hproper, Option.bind_eq_some_iff] at hat
    obtain ⟨what, hat, hkept⟩ := hat
    exact ⟨place, what, finds_of_locate hlocate, reach_eq_ok_iff.2 ⟨place, hlocate, hat⟩, hat, hkept⟩
  · rintro ⟨place, what, hfinds, hreach, hat, hkept⟩
    obtain ⟨place', hlocate, _⟩ := reach_eq_ok_iff.1 hreach
    obtain rfl := hfinds.unique (finds_of_locate hlocate)
    refine ⟨place, (locate_withoutDeadLinks hproper).2 hlocate, ?_⟩
    rw [at?_withoutDeadLinks hproper, hat, Option.bind_some, hkept]

theorem exists_kept_of_reach {what : FileTree} (h : tree.reach path = .ok what) :
    ∃ place kept, tree.Finds [] path place ∧ tree.at? place = some what ∧ kept? tree.isLive place what = some kept := by
  obtain ⟨place, hplace, hat⟩ := finds_of_reach h
  by_cases hplain : ∃ target, what = link target
  · obtain ⟨target, rfl⟩ := hplain
    exact ⟨place, link target, hplace, hat, kept?_eq_some_link.2 ⟨rfl, isLive_iff.2 ⟨place, hplace.self⟩⟩⟩
  · obtain ⟨kept, hkept⟩ := exists_kept tree.isLive place fun target htarget => hplain ⟨target, htarget⟩
    exact ⟨place, kept, hplace, hat, hkept⟩

theorem reach_directory_of_withoutDeadLinks (hproper : tree.isProper = true)
    (h : tree.withoutDeadLinks.reach path = .ok (directory entries)) :
    ∃ entries', tree.reach path = .ok (directory entries') := by
  obtain ⟨place, what, _, hwhat, _, hkept⟩ := (reach_withoutDeadLinks hproper).1 h
  obtain ⟨_, _, hfile⟩ | ⟨_, _, hlink, _⟩ | ⟨entries', rfl, _⟩ := kept?_cases hkept
  · cases hfile
  · cases hlink
  · exact ⟨entries', hwhat⟩

end XmlSchema.FileTree
