import XmlSchema.Proofs.Catalog.Fetching
import XmlSchema.Proofs.FileTree.LiveLinks

/-!
Bad entries. Dead links show nowhere: the listing is that of the tree without them, unless it is broken off at a link
that resolution gives up. Fetching is not broken off for a path that can be written, leads somewhere and is not too
long.
-/

namespace XmlSchema.Catalog

open FileTree (Place Steps)

variable {tree : FileTree} {c : Catalog} {root place : Place} {depth : Nat} {names : List Text} {name given : Text}
  {entry what kept : FileTree} {live : Place → Bool} {children : List Node}

/-- The system opens such a place. -/
structure IsShort (place : Place) : Prop where
  names : ∀ name ∈ place, Text.Utf8.size name ≤ FileTree.maxNameSize
  path : FileTree.pathSize place ≤ FileTree.maxPathSize

/-! ### The listing without dead links -/

theorem nodeOf_kept (h : FileTree.kept? live place what = some kept) :
    nodeOf children names name kept = nodeOf children names name what := by
  obtain ⟨_, rfl, rfl⟩ | ⟨_, rfl, rfl, _⟩ | ⟨_, rfl, rfl⟩ := FileTree.kept?_cases h <;> rfl

theorem sortedEntries_filterMap {entries : List (Text × FileTree)} {f : Text × FileTree → Option (Text × FileTree)}
    (hnodup : (entries.map Prod.fst).Nodup) (hf : ∀ item kept, f item = some kept → kept.1 = item.1) :
    sortedEntries (entries.filterMap f) = (sortedEntries entries).filterMap f := by
  have hsorted := pairwise_sortedEntries hnodup
  have hkept {items : List (Text × FileTree)} {r : Text → Text → Prop} (h : items.Pairwise fun a b => r a.1 b.1) :
      (items.filterMap f).Pairwise fun a b => r a.1 b.1 :=
    h.filterMap f fun a b hab a' ha b' hb => by rwa [hf a a' ha, hf b b' hb]
  have hnodup' : ((entries.filterMap f).map Prod.fst).Nodup :=
    List.pairwise_map.2 (hkept (List.pairwise_map.1 hnodup))
  refine List.Perm.eq_of_pairwise ?_ (pairwise_sortedEntries hnodup')
    (hkept (r := fun a b => Text.order a b = .lt) hsorted) ?_
  · intro a b _ _ hab hba
    rw [Text.order_swap, hab] at hba
    cases hba
  · exact (List.mergeSort_perm _ _).trans ((List.mergeSort_perm entries _).filterMap f).symm

/-- A link among the entries of a directory is live where the path to it leads somewhere. -/
theorem isLive_entry_iff (hplace : tree.Finds [] (root ++ names) place) (name : Text) :
    tree.isLive (place ++ [name]) = true ↔ ∃ found, tree.canonicalExisting (root ++ names ++ [name]) = .ok found := by
  simp only [FileTree.isLive_iff, FileTree.canonicalExisting_eq_ok_iff]
  refine exists_congr fun found => ?_
  rw [FileTree.Finds.append_iff, FileTree.Finds.append_iff]
  constructor
  · rintro ⟨middle, hmiddle, hlast⟩
    obtain rfl := hmiddle.unique hplace.self
    exact ⟨middle, hplace, hlast⟩
  · rintro ⟨middle, hmiddle, hlast⟩
    obtain rfl := hmiddle.unique hplace
    exact ⟨middle, hplace.self, hlast⟩

theorem target?_link (tree : FileTree) (root path : Place) (target : Text) :
    target? tree root path (.link target) =
      match tree.canonicalExisting path with
      | .ok place => if root.isPrefixOf place then (tree.reach path).toOption else none
      | .error _ => none := by
  rw [target?, entryTarget]
  cases tree.canonicalExisting path with
  | ok place => rfl
  | error fault => cases fault <;> rfl

/-- What is reached has the same node without the dead links. -/
theorem nodeOf_reach (hproper : tree.isProper = true) (path : Steps) :
    (tree.withoutDeadLinks.reach path).toOption.bind (nodeOf children names name) =
      (tree.reach path).toOption.bind (nodeOf children names name) := by
  cases hreach : tree.reach path with
  | ok what =>
      obtain ⟨place, kept, hplace, hat, hkept⟩ := FileTree.exists_kept_of_reach hreach
      rw [(FileTree.reach_withoutDeadLinks hproper).2 ⟨place, what, hplace, hreach, hat, hkept⟩]
      exact nodeOf_kept hkept
  | error fault =>
      cases hreach' : tree.withoutDeadLinks.reach path with
      | error fault' => rfl
      | ok kept =>
          obtain ⟨place, what, _, hwhat, _⟩ := (FileTree.reach_withoutDeadLinks hproper).1 hreach'
          rw [hreach] at hwhat
          cases hwhat

/-- An entry has the same node without the dead links, and a dead link has none. -/
theorem nodeOf_target?_kept (hproper : tree.isProper = true) (hplace : tree.Finds [] (root ++ names) place)
    (entry : FileTree) :
    (FileTree.kept? tree.isLive (place ++ [name]) entry).bind (fun kept =>
      (target? tree.withoutDeadLinks root (root ++ names ++ [name]) kept).bind (nodeOf children names name)) =
    (target? tree root (root ++ names ++ [name]) entry).bind (nodeOf children names name) := by
  cases entry with
  | file content => rfl
  | directory entries => rfl
  | link target =>
      have hlive := isLive_entry_iff hplace name
      rw [target?_link]
      cases hcanonical : tree.canonicalExisting (root ++ names ++ [name]) with
      | error fault =>
          have hdead : ¬tree.isLive (place ++ [name]) = true := by
            rw [hlive, hcanonical]
            simp
          rw [FileTree.kept?, if_neg hdead]
          rfl
      | ok found =>
          have hcanonical' := (FileTree.canonicalExisting_withoutDeadLinks hproper).2 hcanonical
          rw [FileTree.kept?, if_pos (hlive.2 ⟨found, hcanonical⟩), Option.bind_some, target?_link, hcanonical']
          by_cases hbegins : root.isPrefixOf found
          · simpa only [if_pos hbegins] using nodeOf_reach hproper _
          · simp only [if_neg hbegins]

/-- Without the dead links the same is shown. -/
theorem shown_withoutDeadLinks (hproper : tree.isProper = true) (depth : Nat) (names : List Text) :
    shown tree.withoutDeadLinks root depth names = shown tree root depth names := by
  induction depth generalizing names with
  | zero => rfl
  | succ depth ih =>
      rw [shown, shown]
      by_cases hopen : ∃ entries, tree.reach (root ++ names) = .ok (.directory entries)
      · obtain ⟨entries, hreach⟩ := hopen
        obtain ⟨place, kept, hplace, hat, hkept⟩ := FileTree.exists_kept_of_reach hreach
        have hreach' := (FileTree.reach_withoutDeadLinks hproper).2 ⟨place, _, hplace, hreach, hat, hkept⟩
        obtain rfl := Option.some.inj hkept
        rw [hreach, hreach']
        simp only
        rw [FileTree.keptIn_eq, sortedEntries_filterMap (isProper_of_reach hproper hreach).1, List.filterMap_filterMap]
        · congr 2
          funext item
          rw [← nodeOf_target?_kept hproper hplace, ← ih, Option.bind_map]
          rfl
        · intro item kept hitem
          obtain ⟨below, _, rfl⟩ := Option.map_eq_some_iff.1 hitem
          rfl
      · have hclosed (entries : List (Text × FileTree)) :
            tree.withoutDeadLinks.reach (root ++ names) ≠ .ok (.directory entries) :=
          fun hreach => hopen (FileTree.reach_directory_of_withoutDeadLinks hproper hreach)
        split
        · next entries hreach => exact absurd hreach (hclosed entries)
        · split
          · next entries hreach => exact absurd ⟨entries, hreach⟩ hopen
          · rfl

/-- The catalog without its dead links. -/
def withoutDeadLinks (c : Catalog) : Catalog := { c with tree := c.tree.withoutDeadLinks }

theorem listed_withoutDeadLinks (hproper : c.tree.isProper = true) : c.withoutDeadLinks.listed = c.listed := by
  rw [listed, listed]
  cases hcanonical : c.tree.canonicalExisting c.root with
  | ok root =>
      have hcanonical' : c.withoutDeadLinks.tree.canonicalExisting c.withoutDeadLinks.root = .ok root :=
        (FileTree.canonicalExisting_withoutDeadLinks hproper).2 hcanonical
      rw [hcanonical']
      exact shown_withoutDeadLinks hproper _ []
  | error fault =>
      cases hcanonical' : c.withoutDeadLinks.tree.canonicalExisting c.withoutDeadLinks.root with
      | error fault' => rfl
      | ok root =>
          have hroot : c.tree.canonicalExisting c.root = .ok root :=
            (FileTree.canonicalExisting_withoutDeadLinks hproper).1 hcanonical'
          rw [hcanonical] at hroot
          cases hroot

theorem list_withoutDeadLinks (hproper : c.tree.isProper = true) : c.withoutDeadLinks.list = .ok c.listed := by
  rw [← listed_withoutDeadLinks hproper]
  exact list_eq_ok (FileTree.isProper_withoutDeadLinks hproper) (FileTree.isLoopFree_withoutDeadLinks hproper)

/-! ### Fetching -/

theorem followSteps_ne_tooLong {enter : Place → Steps → Except FileTree.Fault Place} {front rest : Place}
    (h : tree.IsCanonical (front ++ rest)) (hshort : ∀ name ∈ rest, Text.Utf8.size name ≤ FileTree.maxNameSize) :
    FileTree.followSteps tree enter front rest ≠ .error .tooLong := by
  induction rest generalizing front with
  | nil => simp [FileTree.followSteps]
  | cons step rest ih =>
      obtain ⟨hidle, hup⟩ := h.names step (by simp)
      have hunlinked := h.unlinked front step ⟨rest, by simp⟩
      rw [List.forall_mem_cons] at hshort
      rw [FileTree.followSteps]
      split
      · rw [if_neg (by simp [hidle]), if_neg (by simp [hup]), if_neg (Nat.not_lt.2 hshort.1)]
        split
        · simp
        · next target hat => exact absurd hat (hunlinked target)
        · exact ih (by simpa using h) hshort.2
      · simp

/-- At a place without links on the way only its own names can be too long. -/
theorem IsShort.reach (h : IsShort place) (hcanonical : tree.IsCanonical place) :
    tree.reach place ≠ .error .tooLong := by
  have hnames : tree.IsCanonical ([] ++ place) := hcanonical
  have hfollow : tree.follow FileTree.maxLinks [] place ≠ .error .tooLong := followSteps_ne_tooLong hnames h.names
  have hlocate : tree.locate place = tree.follow FileTree.maxLinks [] place := if_neg (Nat.not_lt.2 h.path)
  rw [FileTree.reach, hlocate]
  cases hfound : tree.follow FileTree.maxLinks [] place with
  | error fault =>
      rw [hfound] at hfollow
      simpa [bind, Except.bind] using hfollow
  | ok found =>
      simp only [bind, Except.bind]
      split
      · simp [pure, Except.pure]
      · simp [throw, throwThe, MonadExceptOf.throw]

theorem readPlace_ne_brokenOff (hshort : IsShort place) (hcanonical : tree.IsCanonical place) (path : Text)
    (cause : Breakdown) : readPlace tree place path ≠ .error (.brokenOff cause) := by
  rw [readPlace]
  split
  · split
    · simp
    · next hreach => exact absurd hreach (hshort.reach hcanonical)
    · simp
  · simp

theorem read_ne_brokenOff (hroot : c.tree.Leads [] c.root root)
    (hplace : c.tree.Leads [] (c.joined (Text.Percent.decode given)) place)
    (hwritable : ∀ p ∈ Text.Percent.decode given, isWritable p = true) (hshort : IsShort place) (cause : Breakdown) :
    c.read given ≠ .error (.brokenOff cause) := by
  obtain ⟨n, hn⟩ := hplace
  have hread := readPlace_ne_brokenOff hshort (hn.isCanonical .nil) (Text.Percent.decode given)
  rw [read_eq hroot ⟨n, hn⟩, if_pos (List.all_eq_true.2 hwritable)]
  split
  · simp
  · split
    · cases hbytes : readPlace c.tree place (Text.Percent.decode given) with
      | error fault =>
          intro hfault
          obtain rfl := Except.error.inj hfault
          exact hread cause hbytes
      | ok content =>
          simp only [Except.bind, textOf]
          split <;> simp
    · simp

/-- Dead links change nothing in the listing, unless it is broken off, as it is only where links lead back to
themselves. Fetching is broken off neither, for a path that can be written, leads somewhere and is not too long. -/
theorem bad_entries_left_out (c : Catalog) (hproper : c.tree.isProper = true) :
    (∃ nodes, c.withoutDeadLinks.list = .ok nodes ∧ (¬c.IsBrokenOff → c.list = .ok nodes)) ∧
      (c.IsBrokenOff → c.list = .error .linkLoop) ∧ (c.tree.IsLoopFree → ¬c.IsBrokenOff) ∧
      ∀ given root place, c.tree.Leads [] c.root root →
        c.tree.Leads [] (c.joined (Text.Percent.decode given)) place →
        (∀ p ∈ Text.Percent.decode given, isWritable p = true) → IsShort place →
        ∀ cause, c.read given ≠ .error (.brokenOff cause) := by
  obtain ⟨hbroken, hlisted⟩ := list_eq hproper
  refine ⟨⟨c.listed, list_withoutDeadLinks hproper, hlisted⟩, hbroken, fun hloops h => ?_,
    fun given root place hroot hplace hwritable hshort => read_ne_brokenOff hroot hplace hwritable hshort⟩
  have hlist := list_eq_ok hproper hloops
  rw [hbroken h] at hlist
  cases hlist

/-- A link that leads to itself breaks the listing off, and leaves alone what is fetched elsewhere. -/
theorem bad_entries_left_out_sample : sample.tree.isProper = true ∧ sample.list = .error .linkLoop ∧
    (∃ nodes, sample.withoutDeadLinks.list = .ok nodes) ∧ ∀ cause, sample.read "a.xsd" ≠ .error (.brokenOff cause) := by
  have hproper : sample.tree.isProper = true := by decide
  obtain ⟨⟨nodes, hnodes, _⟩, hbroken, _, hread⟩ := bad_entries_left_out sample hproper
  have hroot : sample.tree.Leads [] sample.root ["root"] := FileTree.resolution_eq_place_iff.1 (by cbv)
  have hplace : sample.tree.Leads [] (sample.joined (Text.Percent.decode "a.xsd")) ["root", "a.xsd"] :=
    FileTree.resolution_eq_place_iff.1 (by cbv)
  have hloop : entryAt? sample.tree ["root"] [] "loop" = some (.link "loop") := by cbv
  exact ⟨hproper, hbroken (.inr ⟨["root"], by cbv, .here hloop (by cbv)⟩), ⟨nodes, hnodes⟩,
    hread "a.xsd" _ _ hroot hplace (by decide) ⟨by decide, by decide⟩⟩

end XmlSchema.Catalog
