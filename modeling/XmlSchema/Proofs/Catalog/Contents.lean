import Mathlib
import XmlSchema.Proofs.Catalog.Listing

/-!
The listing is exactly the catalog: in a tree without loops of links it shows every directory and every schema file that
names lead to from the root, to the depth that is asked for, each once, in order, and nothing outside the root.
-/

namespace XmlSchema.Catalog

open FileTree (Place Steps)

/-- Names lead from the root to something in the catalog: over directories, and with every link among them, the last one
too, leading to a place inside the root. -/
structure IsSeen (tree : FileTree) (root : Place) (names : List Text) (what : FileTree) : Prop where
  isName : ∀ name ∈ names, FileTree.IsName name
  above : ∀ front, front <+: names → front ≠ names → ∃ entries, tree.reach (root ++ front) = .ok (.directory entries)
  denoted : ∃ front name, names = front ++ [name] ∧ denoted? tree root front name = some what
  inside : ∀ front name, front ++ [name] <+: names → StaysInside tree root front name

mutual

/-- A node and all nodes beneath it. -/
def Node.withBelow : Node → List Node
  | .directory name path children => .directory name path children :: allNodes children
  | .file name path => [.file name path]

def allNodes : List Node → List Node
  | [] => []
  | node :: nodes => node.withBelow ++ allNodes nodes

end

/-- Directories before files, and each of the two sorted by name, with no name twice. -/
def IsArranged (nodes : List Node) : Prop :=
  ∃ directories files, nodes = directories ++ files ∧ (∀ node ∈ directories, isDirectory node = true) ∧
    (∀ node ∈ files, isDirectory node = false) ∧
    directories.Pairwise (fun a b => Text.order a.name b.name = .lt) ∧
    files.Pairwise fun a b => Text.order a.name b.name = .lt

/-- Nodes show what is in the catalog below a root, down to so many levels. -/
structure Shows (tree : FileTree) (root : Place) (depth : Nat) (nodes : List Node) : Prop where
  path : ∀ names node, Stands nodes names node → node.path = Text.join "/" names
  pathBelow : ∀ names name path children node, Stands nodes names (.directory name path children) → node ∈ children →
    node.path = path ++ "/" ++ node.name
  distinct : ((allNodes nodes).map Node.path).Nodup
  arranged : IsArranged nodes
  arrangedBelow : ∀ names name path children, Stands nodes names (.directory name path children) → IsArranged children
  files : ∀ names, (∃ name path, Stands nodes names (.file name path)) ↔
    names.length ≤ depth ∧ Text.endsWith (names.getLastD []) schemaSuffix = true ∧
      ∃ content, IsSeen tree root names (.file content)
  directories : ∀ names, (∃ name path children, Stands nodes names (.directory name path children)) ↔
    names.length ≤ depth ∧ ∃ entries, IsSeen tree root names (.directory entries)
  deepest : ∀ names name path children, Stands nodes names (.directory name path children) → names.length = depth →
    children = []
  inside : ∀ names node, Stands nodes names node → ∃ place, tree.Finds [] (root ++ names) place ∧ root <+: place

variable {tree : FileTree} {root : Place} {depth : Nat} {front names : List Text} {name : Text} {what : FileTree}
  {nodes : List Node} {node : Node}

/-! ### Where names lead -/

/-- An open directory lies inside the root, and what a name in it denotes lies there too. -/
theorem located_of_open (hproper : tree.isProper = true)
    (hfront : ∃ place, tree.Finds [] (root ++ front) place ∧ root <+: place)
    (hdenoted : denoted? tree root front name = some what) (hinside : StaysInside tree root front name) :
    ∃ place, tree.Finds [] (root ++ (front ++ [name])) place ∧ root <+: place ∧ tree.at? place = some what := by
  rw [← List.append_assoc]
  obtain ⟨entry, hentry⟩ := entryAt?_of_denoted? hdenoted
  by_cases hlink : ∃ target, entry = .link target
  · obtain ⟨target, rfl⟩ := hlink
    obtain ⟨place, hplace, hbegins⟩ := hinside target hentry
    rw [denoted?_link hentry] at hdenoted
    cases hreach : tree.reach (root ++ front ++ [name]) with
    | error fault => simp only [hreach, Except.toOption, reduceCtorEq] at hdenoted
    | ok reached =>
        obtain rfl : reached = what := by simpa only [hreach, Except.toOption, Option.some.injEq] using hdenoted
        obtain ⟨other, hother, hat⟩ := FileTree.finds_of_reach hreach
        obtain rfl := hother.unique hplace
        exact ⟨other, hplace, hbegins, hat⟩
  · -- What is no link lies where its directory does.
    have hplain (target : Text) (htarget : entry = .link target) : False := hlink ⟨target, htarget⟩
    rw [denoted?_plain hentry hplain] at hdenoted
    obtain rfl := Option.some.inj hdenoted
    obtain ⟨place, hplace, hbegins⟩ := hfront
    obtain ⟨entries, hreach, hlookup⟩ := reach_of_entryAt? hentry
    obtain ⟨other, hother, hentries⟩ := FileTree.finds_of_reach hreach
    obtain rfl := hother.unique hplace
    have hat : tree.at? (other ++ [name]) = some entry := by
      rw [FileTree.at?_concat, hentries]
      exact hlookup
    have hname := (FileTree.isLegalName_iff.1 (isLegalName_of_entryAt? hproper hentry)).1
    have hlast : tree.Finds other [name] (other ++ [name]) := .name hname hat hplain (.here _)
    exact ⟨other ++ [name], FileTree.Finds.append_iff.2 ⟨other, hother, hlast⟩,
      hbegins.trans (List.prefix_append _ _), hat⟩

theorem IsOpen.located (hproper : tree.isProper = true) (hroot : tree.Finds [] root root)
    (h : IsOpen tree root names) : ∃ place, tree.Finds [] (root ++ names) place ∧ root <+: place := by
  induction h with
  | root => exact ⟨root, by simpa using hroot, List.prefix_refl root⟩
  | into _ hdenoted hinside ih =>
      obtain ⟨place, hplace, hbegins, _⟩ := located_of_open hproper ih hdenoted hinside
      exact ⟨place, hplace, hbegins⟩

theorem IsOpen.isLegalName (hproper : tree.isProper = true) (h : IsOpen tree root names) :
    ∀ name ∈ names, FileTree.isLegalName name = true := by
  induction h with
  | root => simp
  | into _ hdenoted _ ih =>
      obtain ⟨entry, hentry⟩ := entryAt?_of_denoted? hdenoted
      rw [List.forall_mem_append, List.forall_mem_singleton]
      exact ⟨ih, isLegalName_of_entryAt? hproper hentry⟩

/-- What is reached at a name is what it denotes. -/
theorem denoted?_of_reach {entries : List (Text × FileTree)} (hname : FileTree.IsName name)
    (hfront : tree.reach (root ++ front) = .ok (.directory entries))
    (hreach : tree.reach (root ++ front ++ [name]) = .ok what) : denoted? tree root front name = some what := by
  obtain ⟨place, hplace, hentries⟩ := FileTree.finds_of_reach hfront
  obtain ⟨found, hfound, hat⟩ := FileTree.finds_of_reach hreach
  obtain ⟨middle, hmiddle, hlast⟩ := FileTree.Finds.append_iff.1 hfound
  obtain rfl := hmiddle.unique hplace
  have hentry : entryAt? tree root front name = tree.at? (middle ++ [name]) := by
    rw [entryAt?_eq hfront, FileTree.at?_concat, hentries]
    rfl
  cases hlast with
  | idle hidle => simp [hname.1] at hidle
  | upward _ hup => simp [hname.2] at hup
  | link _ hlink =>
      rw [denoted?_link (hentry.trans hlink), hreach]
      rfl
  | name _ hentry' hplain hrest =>
      cases hrest with
      | here =>
          obtain rfl := Option.some.inj (hentry'.symm.trans hat)
          exact denoted?_plain (hentry.trans hentry') hplain

theorem IsOpen.of_prefixes (hnames : ∀ name ∈ names, FileTree.IsName name)
    (habove : ∀ front, front <+: names → ∃ entries, tree.reach (root ++ front) = .ok (.directory entries))
    (hinside : ∀ front name, front ++ [name] <+: names → StaysInside tree root front name) :
    IsOpen tree root names := by
  induction names using List.reverseRecOn with
  | nil => exact .root
  | append_singleton front name ih =>
      have hbegins : front <+: front ++ [name] := List.prefix_append _ _
      obtain ⟨entries, hentries⟩ := habove front hbegins
      obtain ⟨below, hbelow⟩ := habove (front ++ [name]) (List.prefix_refl _)
      rw [List.forall_mem_append, List.forall_mem_singleton] at hnames
      exact .into (ih hnames.1 (fun other hother => habove other (hother.trans hbegins))
        fun other next hother => hinside other next (hother.trans hbegins))
        (denoted?_of_reach hnames.2 hentries (by rwa [List.append_assoc])) (hinside front name (List.prefix_refl _))

theorem reach_of_denoted? (h : denoted? tree root names name = some what) :
    ∃ entries, tree.reach (root ++ names) = .ok (.directory entries) := by
  obtain ⟨entry, hentry⟩ := entryAt?_of_denoted? h
  obtain ⟨entries, hreach, _⟩ := reach_of_entryAt? hentry
  exact ⟨entries, hreach⟩

theorem IsOpen.above (h : IsOpen tree root names) (hfront : front <+: names) (hne : front ≠ names) :
    ∃ entries, tree.reach (root ++ front) = .ok (.directory entries) := by
  induction h with
  | root => exact absurd (List.prefix_nil.1 hfront) hne
  | @into names _ _ _ hdenoted _ ih =>
      rcases (List.prefix_concat_iff.1 hfront).resolve_left hne with hfront
      by_cases heq : front = names
      · rw [heq]
        exact reach_of_denoted? hdenoted
      · exact ih hfront heq

theorem concat_prefix_cases {last : Text} (h : front ++ [name] <+: names ++ [last]) :
    (front = names ∧ name = last) ∨ front ++ [name] <+: names := by
  rcases List.prefix_concat_iff.1 h with heq | h
  · obtain ⟨hfront, hlast⟩ := List.append_inj' heq rfl
    exact .inl ⟨hfront, List.singleton_inj.1 hlast⟩
  · exact .inr h

theorem IsOpen.inside (h : IsOpen tree root names) (hfront : front ++ [name] <+: names) :
    StaysInside tree root front name := by
  induction h with
  | root => simp at hfront
  | into _ _ hinside ih =>
      rcases concat_prefix_cases hfront with ⟨rfl, rfl⟩ | hfront
      · exact hinside
      · exact ih hfront

/-- Something is seen at a name if the directory that it stands in is open. -/
theorem isSeen_concat_iff (hproper : tree.isProper = true) : IsSeen tree root (front ++ [name]) what ↔
    IsOpen tree root front ∧ denoted? tree root front name = some what ∧ StaysInside tree root front name := by
  constructor
  · intro h
    obtain ⟨other, last, heq, hdenoted⟩ := h.denoted
    obtain ⟨rfl, hlast⟩ := List.append_inj' heq rfl
    obtain rfl := List.singleton_inj.1 hlast
    have hbegins : front <+: front ++ [name] := List.prefix_append _ _
    refine ⟨.of_prefixes (fun step hstep => h.isName step (hbegins.subset hstep)) (fun other hother => ?_)
      fun other next hother => h.inside other next (hother.trans hbegins), hdenoted,
      h.inside front name (List.prefix_refl _)⟩
    refine h.above other (hother.trans hbegins) fun heq => ?_
    have hlength := hother.length_le
    rw [heq, List.length_append, List.length_singleton] at hlength
    omega
  · rintro ⟨hopen, hdenoted, hinside⟩
    obtain ⟨entry, hentry⟩ := entryAt?_of_denoted? hdenoted
    refine ⟨?_, fun other hother hne => ?_, ⟨front, name, rfl, hdenoted⟩, fun other next hother => ?_⟩
    · rw [List.forall_mem_append, List.forall_mem_singleton]
      exact ⟨fun step hstep => (FileTree.isLegalName_iff.1 (hopen.isLegalName hproper step hstep)).1,
        (FileTree.isLegalName_iff.1 (isLegalName_of_entryAt? hproper hentry)).1⟩
    · by_cases heq : other = front
      · rw [heq]
        exact reach_of_denoted? hdenoted
      · exact hopen.above ((List.prefix_concat_iff.1 hother).resolve_left hne) heq
    · rcases concat_prefix_cases hother with ⟨rfl, rfl⟩ | hother
      · exact hinside
      · exact hopen.inside hother

theorem IsSeen.ne_nil (h : IsSeen tree root names what) : names ≠ [] := by
  obtain ⟨front, name, rfl, _⟩ := h.denoted
  simp

theorem IsSeen.isLegalName (hproper : tree.isProper = true) (h : IsSeen tree root names what) :
    ∀ name ∈ names, FileTree.isLegalName name = true := by
  obtain ⟨front, name, rfl, _⟩ := h.denoted
  obtain ⟨hopen, hdenoted, _⟩ := (isSeen_concat_iff hproper).1 h
  obtain ⟨entry, hentry⟩ := entryAt?_of_denoted? hdenoted
  rw [List.forall_mem_append, List.forall_mem_singleton]
  exact ⟨hopen.isLegalName hproper, isLegalName_of_entryAt? hproper hentry⟩

/-- What is seen stands inside the root. -/
theorem IsSeen.located (hproper : tree.isProper = true) (hroot : tree.Finds [] root root)
    (h : IsSeen tree root names what) :
    ∃ place, tree.Finds [] (root ++ names) place ∧ root <+: place ∧ tree.at? place = some what := by
  obtain ⟨front, name, rfl, _⟩ := h.denoted
  obtain ⟨hopen, hdenoted, hinside⟩ := (isSeen_concat_iff hproper).1 h
  exact located_of_open hproper (hopen.located hproper hroot) hdenoted hinside

/-! ### What is shown -/

theorem Stands.ne_nil (h : Stands nodes names node) : names ≠ [] := by cases h <;> simp

theorem Stands.trans {children : List Node} {path : Text} {inner : List Text}
    (h : Stands nodes names (.directory name path children)) (hinner : Stands children inner node) :
    Stands nodes (names ++ inner) node := by
  generalize hdirectory : Node.directory name path children = directory at h
  induction h with
  | here hnode =>
      subst hdirectory
      exact .within hnode hinner
  | within hnode _ ih => exact .within hnode (ih hdirectory)

/-- A directory among the nodes that are shown is that of a name that denotes one, with what is shown in it. -/
theorem directory_of_nodeOf {children children' : List Node} {name' path : Text}
    (h : nodeOf children names name what = some (.directory name' path children')) :
    (∃ entries, what = .directory entries) ∧ name' = name ∧ children' = children := by
  cases what with
  | directory entries =>
      obtain ⟨rfl, _, rfl⟩ := by simpa [nodeOf] using h
      exact ⟨⟨entries, rfl⟩, rfl, rfl⟩
  | file => simp [nodeOf] at h
  | link => simp [nodeOf] at h

/-- What stands among the nodes shown in an open directory is the node of something that is seen. -/
theorem Stands.isSeen (hproper : tree.isProper = true) (hopen : IsOpen tree root front)
    (h : Stands (shown tree root depth front) names node) :
    ∃ above name what, names = above ++ [name] ∧ names.length ≤ depth ∧ IsOpen tree root (front ++ above) ∧
      denoted? tree root (front ++ above) name = some what ∧ StaysInside tree root (front ++ above) name ∧
      nodeOf (shown tree root (depth - names.length) (front ++ names)) (front ++ above) name what = some node := by
  generalize hnodes : shown tree root depth front = nodes at h
  induction h generalizing depth front with
  | @here _ node hnode =>
      subst hnodes
      cases depth with
      | zero => simp [shown] at hnode
      | succ depth =>
          obtain ⟨name, what, hdenoted, hinside, hnode⟩ := (mem_shown hproper).1 hnode
          have hname := name_of_nodeOf hnode
          exact ⟨[], name, what, by rw [hname, List.nil_append], by simp, by simpa using hopen, by simpa using hdenoted,
            by simpa using hinside, by simpa [hname] using hnode⟩
  | @within _ children name path names node hdirectory hnode ih =>
      subst hnodes
      cases depth with
      | zero => simp [shown] at hdirectory
      | succ depth =>
          obtain ⟨_, _, hdenoted, hinside, hdirectory⟩ := (mem_shown hproper).1 hdirectory
          obtain ⟨⟨entries, rfl⟩, rfl, rfl⟩ := directory_of_nodeOf hdirectory
          obtain ⟨above, last, what, rfl, hlength, hopen, hdenoted, hinside, hnode⟩ :=
            ih (hopen.into hdenoted hinside) rfl
          simp only [List.append_assoc, List.singleton_append] at hopen hdenoted hinside hnode
          refine ⟨name :: above, last, what, rfl, by simpa using hlength, hopen, hdenoted, hinside, ?_⟩
          rwa [List.length_cons, Nat.add_sub_add_right]

/-- A name in an open directory that is not too deep is shown, if it has a node. -/
theorem stands_of_isOpen (hproper : tree.isProper = true) (hopen : IsOpen tree root front)
    (hdenoted : denoted? tree root front name = some what) (hinside : StaysInside tree root front name)
    (hlength : front.length < depth)
    (hnode : nodeOf (shown tree root (depth - (front.length + 1)) (front ++ [name])) front name what = some node) :
    Stands (shown tree root depth []) (front ++ [name]) node := by
  induction hopen generalizing name what node with
  | root =>
      obtain ⟨depth, rfl⟩ := Nat.exists_eq_succ_of_ne_zero (Nat.ne_of_gt hlength)
      rw [← name_of_nodeOf hnode]
      exact .here ((mem_shown hproper).2 ⟨name, what, hdenoted, hinside, hnode⟩)
  | @into front last entries hopen hdenoted' hinside' ih =>
      rw [List.length_append, List.length_singleton] at hlength hnode
      have habove := ih hdenoted' hinside' (by omega) rfl
      have hdepth : depth - (front.length + 1) = depth - (front.length + 1 + 1) + 1 := by omega
      refine habove.trans ?_
      rw [← name_of_nodeOf hnode]
      refine .here ?_
      rw [hdepth]
      exact (mem_shown hproper).2 ⟨name, what, hdenoted, hinside, hnode⟩

/-- The listing shows the nodes of the names that lead to something in the catalog, if there are not too many. -/
theorem stands_iff (hproper : tree.isProper = true) : Stands (shown tree root depth []) names node ↔
    ∃ what, names.length ≤ depth ∧ IsSeen tree root names what ∧
      nodeOf (shown tree root (depth - names.length) names) names.dropLast (names.getLastD []) what = some node := by
  constructor
  · intro h
    obtain ⟨above, name, what, rfl, hlength, hopen, hdenoted, hinside, hnode⟩ := h.isSeen hproper .root
    rw [List.nil_append] at hopen hdenoted hinside hnode
    exact ⟨what, hlength, (isSeen_concat_iff hproper).2 ⟨hopen, hdenoted, hinside⟩, by simpa using hnode⟩
  · rintro ⟨what, hlength, hseen, hnode⟩
    obtain ⟨above, name, rfl, _⟩ := hseen.denoted
    obtain ⟨hopen, hdenoted, hinside⟩ := (isSeen_concat_iff hproper).1 hseen
    rw [List.length_append, List.length_singleton] at hlength
    exact stands_of_isOpen hproper hopen hdenoted hinside (by omega) (by simpa using hnode)

theorem Stands.path_eq (hproper : tree.isProper = true) (h : Stands (shown tree root depth []) names node) :
    node.path = Text.join "/" names := by
  obtain ⟨what, _, hseen, hnode⟩ := (stands_iff hproper).1 h
  obtain ⟨above, name, rfl, _⟩ := hseen.denoted
  simpa using path_of_nodeOf hnode

theorem Stands.children_eq (hproper : tree.isProper = true) {children : List Node} {path : Text}
    (h : Stands (shown tree root depth []) names (.directory name path children)) :
    children = shown tree root (depth - names.length) names := by
  obtain ⟨what, _, _, hnode⟩ := (stands_iff hproper).1 h
  exact (directory_of_nodeOf hnode).2.2

theorem stands_file_iff (hproper : tree.isProper = true) :
    (∃ name path, Stands (shown tree root depth []) names (.file name path)) ↔
      names.length ≤ depth ∧ Text.endsWith (names.getLastD []) schemaSuffix = true ∧
        ∃ content, IsSeen tree root names (.file content) := by
  constructor
  · rintro ⟨name, path, h⟩
    obtain ⟨what, hlength, hseen, hnode⟩ := (stands_iff hproper).1 h
    cases what with
    | directory => simp [nodeOf] at hnode
    | file content =>
        have hsuffix : Text.endsWith (names.getLastD []) schemaSuffix = true := by
          by_contra hsuffix
          rw [nodeOf, if_neg hsuffix] at hnode
          cases hnode
        exact ⟨hlength, hsuffix, content, hseen⟩
    | link => simp [nodeOf] at hnode
  · rintro ⟨hlength, hsuffix, content, hseen⟩
    exact ⟨_, _, (stands_iff hproper).2 ⟨_, hlength, hseen, by rw [nodeOf, if_pos hsuffix]⟩⟩

theorem stands_directory_iff (hproper : tree.isProper = true) :
    (∃ name path children, Stands (shown tree root depth []) names (.directory name path children)) ↔
      names.length ≤ depth ∧ ∃ entries, IsSeen tree root names (.directory entries) := by
  constructor
  · rintro ⟨name, path, children, h⟩
    obtain ⟨what, hlength, hseen, hnode⟩ := (stands_iff hproper).1 h
    obtain ⟨⟨entries, rfl⟩, _⟩ := directory_of_nodeOf hnode
    exact ⟨hlength, entries, hseen⟩
  · rintro ⟨hlength, entries, hseen⟩
    exact ⟨_, _, _, (stands_iff hproper).2 ⟨_, hlength, hseen, rfl⟩⟩

/-! ### The arrangement -/

theorem pairwise_sortedEntries {entries : List (Text × FileTree)} (hnodup : (entries.map Prod.fst).Nodup) :
    (sortedEntries entries).Pairwise fun a b => Text.order a.1 b.1 = .lt := by
  have hsorted : (sortedEntries entries).Pairwise fun a b => (Text.order a.1 b.1 != .gt) = true := by
    refine List.pairwise_mergeSort (fun a b c hab hbc => ?_) (fun a b => ?_) entries
    · simp only [bne_iff_ne] at hab hbc ⊢
      exact Text.order_trans hab hbc
    · rw [Text.order_swap a.1 b.1]
      cases Text.order a.1 b.1 <;> rfl
  have hnames : (sortedEntries entries).Pairwise fun a b => a.1 ≠ b.1 :=
    List.pairwise_map.1 (((List.mergeSort_perm entries _).map Prod.fst).nodup_iff.2 hnodup)
  refine (hsorted.and hnames).imp fun {a b} ⟨hle, hne⟩ => ?_
  have hneq := mt Text.order_eq_eq_iff.1 hne
  cases horder : Text.order a.1 b.1 with
  | lt => rfl
  | eq => exact absurd horder hneq
  | gt => simp [horder] at hle

/-- What is shown in a directory comes from nodes in the order of their names. -/
theorem exists_sorted_shown (hproper : tree.isProper = true) (root : Place) (depth : Nat) (names : List Text) :
    ∃ nodes, shown tree root depth names = arranged nodes ∧
      nodes.Pairwise fun a b => Text.order a.name b.name = .lt := by
  cases depth with
  | zero => exact ⟨[], rfl, .nil⟩
  | succ depth =>
      rw [shown]
      split
      · next entries hreach =>
          refine ⟨_, rfl, (pairwise_sortedEntries (isProper_of_reach hproper hreach).1).filterMap _ ?_⟩
          rintro ⟨name, entry⟩ ⟨name', entry'⟩ hlt a ha b hb
          obtain ⟨what, _, ha⟩ := Option.bind_eq_some_iff.1 ha
          obtain ⟨what', _, hb⟩ := Option.bind_eq_some_iff.1 hb
          rw [name_of_nodeOf ha, name_of_nodeOf hb]
          exact hlt
      · exact ⟨[], rfl, .nil⟩

theorem isArranged_shown (hproper : tree.isProper = true) (depth : Nat) (names : List Text) :
    IsArranged (shown tree root depth names) := by
  obtain ⟨nodes, hshown, hsorted⟩ := exists_sorted_shown hproper root depth names
  rw [hshown, arranged]
  refine ⟨_, _, rfl, fun node hnode => (List.mem_filter.1 hnode).2, fun node hnode => ?_, hsorted.filter _,
    hsorted.filter _⟩
  simpa using (List.mem_filter.1 hnode).2

theorem pairwise_names_shown (hproper : tree.isProper = true) (root : Place) (depth : Nat) (names : List Text) :
    (shown tree root depth names).Pairwise fun a b => a.name ≠ b.name := by
  obtain ⟨nodes, hshown, hsorted⟩ := exists_sorted_shown hproper root depth names
  rw [hshown, arranged, (List.filter_append_perm isDirectory nodes).pairwise_iff fun h => h.symm]
  refine hsorted.imp fun {a b} hlt heq => ?_
  rw [Text.order_eq_eq_iff.2 heq] at hlt
  cases hlt

/-! ### Different paths -/

theorem allNodes_eq_flatMap (nodes : List Node) : allNodes nodes = nodes.flatMap Node.withBelow := by
  induction nodes with
  | nil => rfl
  | cons node nodes ih => rw [allNodes, ih, List.flatMap_cons]

theorem not_mem_slash (hlegal : ∀ name ∈ names, FileTree.isLegalName name = true) :
    ∀ name ∈ names, CodePoint.ofChar '/' ∉ name := fun name hname hmem =>
  ((FileTree.isLegalName_iff.1 (hlegal name hname)).2.1 _ hmem).2.1 rfl

theorem steps_join (hlegal : ∀ name ∈ names, FileTree.isLegalName name = true) (hne : names ≠ []) :
    FileTree.steps (Text.join "/" names) = names := Text.splitOn_join (not_mem_slash hlegal) hne

theorem join_injective {others : List Text} (hnames : ∀ name ∈ names, FileTree.isLegalName name = true)
    (hothers : ∀ name ∈ others, FileTree.isLegalName name = true) (hne : names ≠ []) (hne' : others ≠ [])
    (h : Text.join "/" names = Text.join "/" others) : names = others := by
  rw [← steps_join hnames hne, ← steps_join hothers hne', h]

/-- The nodes with one of those that are shown have paths that begin with its name. -/
theorem path_of_mem_withBelow (hproper : tree.isProper = true) (hopen : IsOpen tree root front)
    (h : node ∈ shown tree root depth front) {inner : Node} (hinner : inner ∈ node.withBelow) :
    ∃ later, inner.path = Text.join "/" (front ++ node.name :: later) ∧
      ∀ name ∈ front ++ node.name :: later, FileTree.isLegalName name = true := by
  induction depth generalizing front node with
  | zero => simp [shown] at h
  | succ depth ih =>
      obtain ⟨name, what, hdenoted, hinside, hnode⟩ := (mem_shown hproper).1 h
      have hname := name_of_nodeOf hnode
      have hpath := path_of_nodeOf hnode
      obtain ⟨entry, hentry⟩ := entryAt?_of_denoted? hdenoted
      have hlegal : ∀ name' ∈ front ++ [name], FileTree.isLegalName name' = true := by
        rw [List.forall_mem_append, List.forall_mem_singleton]
        exact ⟨hopen.isLegalName hproper, isLegalName_of_entryAt? hproper hentry⟩
      rw [hname]
      cases node with
      | file name' path =>
          rw [Node.withBelow, List.mem_singleton] at hinner
          exact ⟨[], by rw [hinner, hpath], hlegal⟩
      | directory name' path children =>
          rw [Node.withBelow, List.mem_cons] at hinner
          rcases hinner with rfl | hinner
          · exact ⟨[], hpath, hlegal⟩
          · obtain ⟨⟨entries, rfl⟩, rfl, rfl⟩ := directory_of_nodeOf hnode
            rw [allNodes_eq_flatMap] at hinner
            obtain ⟨top, htop, hinner⟩ := List.mem_flatMap.1 hinner
            obtain ⟨later, hpath, hlegal⟩ := ih (hopen.into hdenoted hinside) htop hinner
            rw [List.append_assoc, List.singleton_append] at hpath hlegal
            exact ⟨top.name :: later, hpath, hlegal⟩

theorem path_of_mem_allNodes (hproper : tree.isProper = true) (hopen : IsOpen tree root front) {path : Text}
    (h : path ∈ (allNodes (shown tree root depth front)).map Node.path) :
    ∃ next later, path = Text.join "/" (front ++ next :: later) ∧
      ∀ name ∈ front ++ next :: later, FileTree.isLegalName name = true := by
  rw [allNodes_eq_flatMap] at h
  obtain ⟨inner, hinner, rfl⟩ := List.mem_map.1 h
  obtain ⟨top, htop, hinner⟩ := List.mem_flatMap.1 hinner
  obtain ⟨later, hpath, hlegal⟩ := path_of_mem_withBelow hproper hopen htop hinner
  exact ⟨top.name, later, hpath, hlegal⟩

/-- The path of an open directory is not that of a node beneath it. -/
theorem join_notMem_paths (hproper : tree.isProper = true) (hopen : IsOpen tree root front) (hne : front ≠ []) :
    Text.join "/" front ∉ (allNodes (shown tree root depth front)).map Node.path := by
  intro h
  obtain ⟨next, later, hpath, hlegal⟩ := path_of_mem_allNodes hproper hopen h
  have heq := join_injective (hopen.isLegalName hproper) hlegal hne (by simp) hpath
  simp at heq

theorem disjoint_paths (hproper : tree.isProper = true) (hopen : IsOpen tree root front) {other : Node}
    (hnode : node ∈ shown tree root depth front) (hother : other ∈ shown tree root depth front)
    (hne : node.name ≠ other.name) :
    List.Disjoint (node.withBelow.map Node.path) (other.withBelow.map Node.path) := by
  intro path hpath hpath'
  obtain ⟨inner, hinner, rfl⟩ := List.mem_map.1 hpath
  obtain ⟨inner', hinner', hsame⟩ := List.mem_map.1 hpath'
  obtain ⟨later, hinner, hlegal⟩ := path_of_mem_withBelow hproper hopen hnode hinner
  obtain ⟨later', hinner', hlegal'⟩ := path_of_mem_withBelow hproper hopen hother hinner'
  have heq := join_injective hlegal hlegal' (by simp) (by simp) (hinner.symm.trans (hsame.symm.trans hinner'))
  exact hne (List.cons.inj (List.append_cancel_left heq)).1

theorem nodup_paths (hproper : tree.isProper = true) (hopen : IsOpen tree root front) :
    ((allNodes (shown tree root depth front)).map Node.path).Nodup := by
  induction depth generalizing front with
  | zero => exact List.nodup_nil
  | succ depth ih =>
      rw [allNodes_eq_flatMap, List.map_flatMap, List.nodup_flatMap]
      constructor
      · intro node hnode
        cases node with
        | file name path => exact List.nodup_singleton _
        | directory name path children =>
            obtain ⟨name', what, hdenoted, hinside, hnode⟩ := (mem_shown hproper).1 hnode
            obtain rfl : path = Text.join "/" (front ++ [name']) := path_of_nodeOf hnode
            obtain ⟨⟨entries, rfl⟩, rfl, rfl⟩ := directory_of_nodeOf hnode
            have hopen' := hopen.into hdenoted hinside
            rw [Node.withBelow, List.map_cons, List.nodup_cons]
            exact ⟨join_notMem_paths hproper hopen' (by simp), ih hopen'⟩
      · -- The names of two nodes tell all paths beneath them apart.
        exact (pairwise_names_shown hproper root (depth + 1) front).imp_of_mem fun hnode hother =>
          disjoint_paths hproper hopen hnode hother

/-! ### The listing -/

theorem shows_shown (hproper : tree.isProper = true) (hroot : tree.Finds [] root root) (depth : Nat) :
    Shows tree root depth (shown tree root depth []) where
  path _ _ h := h.path_eq hproper
  pathBelow names name path children node h hnode := by
    have hpath : path = Text.join "/" names := h.path_eq hproper
    rw [(h.trans (.here hnode)).path_eq hproper, Text.join_concat _ _ h.ne_nil, hpath]
  distinct := nodup_paths hproper .root
  arranged := isArranged_shown hproper depth []
  arrangedBelow names name path children h := by
    rw [h.children_eq hproper]
    exact isArranged_shown hproper _ _
  files _ := stands_file_iff hproper
  directories _ := stands_directory_iff hproper
  deepest names name path children h hdepth := by
    rw [h.children_eq hproper, hdepth, Nat.sub_self, shown]
  inside _ _ h := by
    obtain ⟨what, _, hseen, _⟩ := (stands_iff hproper).1 h
    obtain ⟨place, hplace, hbegins, _⟩ := hseen.located hproper hroot
    exact ⟨place, hplace, hbegins⟩

/-- In a tree without loops the listing succeeds, with nothing if the root leads nowhere, and else with what is in the
catalog. -/
theorem list_exact (c : Catalog) (hproper : c.tree.isProper = true) (hloops : c.tree.IsLoopFree) :
    ∃ nodes, c.list = .ok nodes ∧ ((∀ root, ¬c.tree.Finds [] c.root root) ∧ nodes = [] ∨
      ∃ root, c.tree.Finds [] c.root root ∧ Shows c.tree root c.maxDepth.toNat nodes) := by
  refine ⟨c.listed, list_eq_ok hproper hloops, ?_⟩
  rw [listed]
  cases hcanonical : c.tree.canonicalExisting c.root with
  | error fault =>
      refine .inl ⟨fun root => ?_, rfl⟩
      rw [← FileTree.canonicalExisting_eq_ok_iff, hcanonical]
      simp
  | ok root =>
      have hroot := FileTree.canonicalExisting_eq_ok_iff.1 hcanonical
      exact .inr ⟨root, hroot, shows_shown hproper hroot.self _⟩

/-- A catalog with links inside it, up to its root, and out of it. -/
def linked : Catalog where
  tree := .directory [("secret.xsd", .file [0x73]), ("root", .directory
    [("b.xsd", .file [0x62]), ("notes", .file [0x6E]),
      ("sub", .directory [("c.xsd", .file [0x63]), ("up", .link "..")]), ("a.xsd", .link "sub/c.xsd"),
      ("out.xsd", .link "../secret.xsd"), ("gone.xsd", .link "nowhere")])]
  root := ["root"]
  maxDepth := 3

theorem linked_isProper : linked.tree.isProper = true := by decide

theorem linked_isLoopFree : linked.tree.IsLoopFree := by
  refine FileTree.isLoopFree_of_leads linked_isProper fun origin horigin => ?_
  have hplaces : linked.tree.linkPlaces = ([["root", "sub", "up"], ["root", "a.xsd"], ["root", "out.xsd"],
      ["root", "gone.xsd"]] : List Place) := by decide
  simp only [hplaces, List.mem_cons, List.not_mem_nil, or_false] at horigin
  rcases horigin with rfl | rfl | rfl | rfl
  · exact ⟨["root"], FileTree.resolution_eq_place_iff.1 (by cbv)⟩
  · exact ⟨["root", "sub", "c.xsd"], FileTree.resolution_eq_place_iff.1 (by cbv)⟩
  · exact ⟨["secret.xsd"], FileTree.resolution_eq_place_iff.1 (by cbv)⟩
  · exact ⟨["root", "nowhere"], FileTree.resolution_eq_place_iff.1 (by cbv)⟩

theorem linked_exact : linked.tree.isProper = true ∧ linked.tree.IsLoopFree ∧
    ∃ nodes, linked.list = .ok nodes ∧ ((∀ root, ¬linked.tree.Finds [] linked.root root) ∧ nodes = [] ∨
      ∃ root, linked.tree.Finds [] linked.root root ∧ Shows linked.tree root 3 nodes) :=
  ⟨linked_isProper, linked_isLoopFree, list_exact linked linked_isProper linked_isLoopFree⟩

end XmlSchema.Catalog
