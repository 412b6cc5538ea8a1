import XmlSchema.Catalog.Reading
import XmlSchema.Proofs.FileTree.Finding

/-!
Trees as file systems hold them: the names in a directory are legal, and no two of them are the same. In such a tree
whatever stands at a place stands at the end of a path without links, and a short path of this kind can be opened.
-/

namespace XmlSchema.FileTree

/-- A name that a file or a directory can have. -/
def isLegalName (name : Text) : Bool :=
  !isIdle name && !isUpward name && name.all (fun c => c.val ≠ 0 && c ≠ '/' && Catalog.isWritable c) &&
    Text.Utf8.size name ≤ maxNameSize

mutual

/-- Names are legal, and different in each directory. -/
def isProper : FileTree → Bool
  | directory entries => decide (entries.map Prod.fst).Nodup && areProper entries
  | _ => true

def areProper : List (Text × FileTree) → Bool
  | [] => true
  | (name, tree) :: entries => isLegalName name && tree.isProper && areProper entries

end

/-- The bytes that a path takes, with a slash before each step. -/
def pathSize (path : Steps) : Nat := path.foldl (fun size step => size + Text.Utf8.size step + 1) 0

variable {tree below : FileTree} {place found : Place} {entries : List (Text × FileTree)} {name : Text}

theorem at?_append (tree : FileTree) (front rest : Place) :
    tree.at? (front ++ rest) = (tree.at? front).bind fun below => below.at? rest := by
  induction front generalizing tree with
  | nil => rfl
  | cons name front ih =>
      rw [List.cons_append, at?, at?]
      split
      · exact ih _
      · rfl

theorem at?_concat (tree : FileTree) (place : Place) (name : Text) :
    tree.at? (place ++ [name]) = (tree.at? place).bind fun below => below.child? name := by
  rw [at?_append]
  congr 1
  funext below
  rw [at?]
  split
  · next child hchild => rw [hchild, at?]
  · next hchild => exact hchild.symm

/-! ### Names of proper trees -/

theorem isLegalName_iff : isLegalName name = true ↔
    IsName name ∧ (∀ c ∈ name, c.val ≠ 0 ∧ c ≠ CodePoint.ofChar '/' ∧ Catalog.isWritable c = true) ∧
      Text.Utf8.size name ≤ maxNameSize := by
  simp [isLegalName, IsName, and_assoc]

theorem areProper_iff : areProper entries = true ↔
    ∀ entry ∈ entries, isLegalName entry.1 = true ∧ entry.2.isProper = true := by
  induction entries with
  | nil => simp [areProper]
  | cons entry entries ih =>
      obtain ⟨name, tree⟩ := entry
      simp [areProper, ih]

theorem isProper_directory_iff : (directory entries).isProper = true ↔
    (entries.map Prod.fst).Nodup ∧ ∀ entry ∈ entries, isLegalName entry.1 = true ∧ entry.2.isProper = true := by
  rw [isProper, Bool.and_eq_true, decide_eq_true_iff, areProper_iff]

theorem mem_of_child? (h : tree.child? name = some below) : ∃ entries, tree = directory entries ∧
    (name, below) ∈ entries := by
  cases tree with
  | file | link => simp [child?] at h
  | directory entries =>
      obtain ⟨before, behind, rfl, _⟩ := List.lookup_eq_some_iff.1 h
      exact ⟨_, rfl, by simp⟩

theorem isProper_at? (hproper : tree.isProper = true) (hat : tree.at? place = some below) :
    below.isProper = true ∧ ∀ name ∈ place, isLegalName name = true := by
  induction place generalizing tree with
  | nil =>
      obtain rfl : tree = below := by simpa [at?] using hat
      exact ⟨hproper, by simp⟩
  | cons name place ih =>
      rw [at?] at hat
      split at hat
      · next child hchild =>
          obtain ⟨entries, rfl, hmem⟩ := mem_of_child? hchild
          obtain ⟨hlegal, hchild⟩ := (isProper_directory_iff.1 hproper).2 _ hmem
          obtain ⟨hbelow, hplace⟩ := ih hchild hat
          exact ⟨hbelow, List.forall_mem_cons.2 ⟨hlegal, hplace⟩⟩
      · simp at hat

theorem isProper_entries (hproper : tree.isProper = true) (hat : tree.at? place = some (directory entries)) :
    (entries.map Prod.fst).Nodup ∧ ∀ entry ∈ entries, isLegalName entry.1 = true :=
  have h := isProper_directory_iff.1 (isProper_at? hproper hat).1
  ⟨h.1, fun entry hentry => (h.2 entry hentry).1⟩

/-! ### Places where something stands -/

/-- Above a place where something stands there are directories. -/
theorem at?_above {front rest : Place} (hat : tree.at? (front ++ rest) = some below) (hrest : rest ≠ []) :
    ∃ entries, tree.at? front = some (directory entries) := by
  obtain ⟨name, rest, rfl⟩ := List.exists_cons_of_ne_nil hrest
  rw [at?_append] at hat
  obtain ⟨above, habove, hbelow⟩ := Option.bind_eq_some_iff.1 hat
  rw [at?] at hbelow
  split at hbelow
  · next child hchild =>
      obtain ⟨entries, rfl, _⟩ := mem_of_child? hchild
      exact ⟨entries, habove⟩
  · simp at hbelow

theorem isCanonical_of_at? (hproper : tree.isProper = true) (hat : tree.at? place = some below)
    (hbelow : ∀ target, below ≠ link target) : tree.IsCanonical place where
  names step hstep := (isLegalName_iff.1 ((isProper_at? hproper hat).2 step hstep)).1
  unlinked front step hfront target hlink := by
    obtain ⟨rest, rfl⟩ := hfront
    cases rest with
    | nil =>
        rw [List.append_nil, hlink] at hat
        exact hbelow target (Option.some.inj hat).symm
    | cons next rest =>
        obtain ⟨entries, hentries⟩ := at?_above hat (by simp)
        simp [hlink] at hentries

theorem isLink_of_at? {target : Text} (hproper : tree.isProper = true)
    (hat : tree.at? (place ++ [name]) = some (link target)) : tree.IsLink (place ++ [name]) := by
  obtain ⟨entries, hentries⟩ := at?_above hat (by simp)
  have hlegal := (isProper_at? hproper hat).2 name (by simp)
  exact ⟨place, name, target, isCanonical_of_at? hproper hentries (by simp), (isLegalName_iff.1 hlegal).1, rfl, hat⟩

/-- Where all links lead somewhere, none leads back to itself. -/
theorem isLoopFree_of_links (hproper : tree.isProper = true)
    (hlinks : ∀ origin target, tree.at? origin = some (link target) → ∃ found, tree.Leads [] origin found) :
    tree.IsLoopFree := by
  intro origin hloop
  obtain ⟨_, ⟨target, hat, _⟩, _⟩ := Relation.TransGen.head'_iff.1 hloop
  obtain ⟨_, _, _, _, hcomes⟩ := Relation.TransGen.tail'_iff.1 hloop
  obtain ⟨above, step, rfl⟩ := hcomes.exists_step
  obtain ⟨found, hfound⟩ := hlinks _ _ hat
  obtain ⟨n, hn⟩ := (isLink_of_at? hproper hat).linkLeadsOver hfound
  exact hn.not_loop hloop

theorem isLoopFree_of_leads (hproper : tree.isProper = true)
    (hlinks : ∀ origin ∈ tree.linkPlaces, ∃ found, tree.Leads [] origin found) : tree.IsLoopFree :=
  isLoopFree_of_links hproper fun origin _ hat => hlinks origin (mem_linkPlaces hat)

/-- A place without links on the way, where something stands, is found by its own names. -/
theorem IsCanonical.finds (h : tree.IsCanonical place) (hat : tree.at? place = some below) :
    tree.Finds [] place place := by
  have hfrom (rest front : Place) (hfront : front ++ rest = place) : tree.Finds front rest place := by
    induction rest generalizing front with
    | nil =>
        obtain rfl : front = place := by simpa using hfront
        exact .here front
    | cons step rest ih =>
        have hbegins : front ++ [step] ++ rest = place := by simpa using hfront
        obtain ⟨entry, hentry⟩ : ∃ entry, tree.at? (front ++ [step]) = some entry := by
          rw [← hbegins, at?_append] at hat
          obtain ⟨entry, hentry, _⟩ := Option.bind_eq_some_iff.1 hat
          exact ⟨entry, hentry⟩
        exact .name (h.names step (by simp [← hfront])) hentry
          (fun target htarget => h.unlinked front step ⟨rest, hbegins⟩ target (htarget ▸ hentry)) (ih _ hbegins)
  exact hfrom place [] rfl

/-- A walk comes to a place without links on the way before it takes any other steps. -/
theorem IsCanonical.followSteps_append (h : tree.IsCanonical place) (hat : tree.at? place = some below)
    (hsize : ∀ name ∈ place, Text.Utf8.size name ≤ maxNameSize) (enter : Place → Steps → Except Fault Place)
    (later : Steps) : tree.followSteps enter [] (place ++ later) = tree.followSteps enter place later := by
  -- No name on the way is a link, so the walk goes from each front of the place to the next.
  have hfrom (rest front : Place) (hfront : front ++ rest = place) :
      tree.followSteps enter front (rest ++ later) = tree.followSteps enter place later := by
    induction rest generalizing front with
    | nil => rw [← hfront, List.append_nil, List.nil_append]
    | cons step rest ih =>
        obtain ⟨entries, hentries⟩ := at?_above (hfront ▸ hat) (List.cons_ne_nil step rest)
        have hmem : step ∈ place := by simp [← hfront]
        obtain ⟨hidle, hup⟩ := h.names step hmem
        have hbegins : front ++ [step] ++ rest = place := by simpa using hfront
        have hrest := ih (front ++ [step]) hbegins
        have hnext : ∃ entry, tree.at? (front ++ [step]) = some entry := by
          rw [← hbegins, at?_append] at hat
          obtain ⟨entry, hentry, _⟩ := Option.bind_eq_some_iff.1 hat
          exact ⟨entry, hentry⟩
        obtain ⟨entry, hentry⟩ := hnext
        rw [List.cons_append, FileTree.followSteps, hentries]
        simp only [hidle, hup, Nat.not_lt.2 (hsize step hmem), hentry, Bool.false_eq_true, if_false]
        cases entry with
        | file | directory => exact hrest
        | link target => exact absurd hentry (h.unlinked front step ⟨rest, hbegins⟩ target)
  exact hfrom place [] rfl

theorem IsCanonical.followSteps_eq (h : tree.IsCanonical place) (hat : tree.at? place = some below)
    (hsize : ∀ name ∈ place, Text.Utf8.size name ≤ maxNameSize) (enter : Place → Steps → Except Fault Place) :
    tree.followSteps enter [] place = .ok place := by
  have happend := h.followSteps_append hat hsize enter []
  rwa [List.append_nil, FileTree.followSteps] at happend

/-- What stands at a place without links on the way is reached by its own names, if they are not too long. -/
theorem IsCanonical.reach_eq (hproper : tree.isProper = true) (h : tree.IsCanonical place)
    (hat : tree.at? place = some below) :
    tree.reach place = if pathSize place ≤ maxPathSize then .ok below else .error .tooLong := by
  have hsize (name : Text) (hname : name ∈ place) : Text.Utf8.size name ≤ maxNameSize :=
    (isLegalName_iff.1 ((isProper_at? hproper hat).2 name hname)).2.2
  have hfollow : tree.follow maxLinks [] place = .ok place := h.followSteps_eq hat hsize _
  have hlocate : tree.locate place = if maxPathSize < pathSize place then .error .tooLong else .ok place := by
    rw [FileTree.locate, hfollow]
    rfl
  rw [FileTree.reach, hlocate]
  split
  · next hlong =>
      rw [if_neg (Nat.not_le.2 hlong)]
      rfl
  · next hshort =>
      rw [if_pos (Nat.not_lt.1 hshort)]
      simp only [bind, Except.bind, hat]
      rfl

theorem Finds.exists_at? (h : tree.Finds place path found) (hplace : ∃ below, tree.at? place = some below) :
    ∃ below, tree.at? found = some below := by
  induction h with
  | here => exact hplace
  | idle _ _ ih => exact ih hplace
  | @upward place _ _ _ _ _ _ ih =>
      refine ih ?_
      rcases List.eq_nil_or_concat' place with rfl | ⟨front, name, rfl⟩
      · exact hplace
      · obtain ⟨below, hbelow⟩ := hplace
        obtain ⟨entries, hentries⟩ := at?_above hbelow (by simp)
        exact ⟨_, by rwa [List.dropLast_concat]⟩
  | name _ hat _ _ ih => exact ih ⟨_, hat⟩
  | @link place _ _ _ _ target _ _ _ _ ihtarget ihrest =>
      refine ihrest (ihtarget ?_)
      rw [start]
      split
      · exact ⟨tree, rfl⟩
      · exact hplace

theorem Finds.self {path : Steps} (h : tree.Finds [] path found) : tree.Finds [] found found := by
  obtain ⟨below, hbelow⟩ := h.exists_at? ⟨tree, rfl⟩
  exact (h.isCanonical .nil).finds hbelow

end XmlSchema.FileTree
