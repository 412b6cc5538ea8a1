import XmlSchema.Catalog.Listing
import XmlSchema.Proofs.FileTree.Entries
import XmlSchema.Proofs.Text.Paths

/-!
The listing as a function without failures: what is listed at names that lead from the root is what the entry of the
last of them denotes, if the names before it lead over directories, and links only to places inside the root. The
listing is broken off where it meets a link that leads back to itself, and otherwise shows exactly this.
-/

namespace XmlSchema.Catalog

open FileTree (Place Steps)

def Node.name : Node → Text
  | directory name _ _ => name
  | file name _ => name

def Node.path : Node → Text
  | directory _ path _ => path
  | file _ path => path

/-- A node stands among others at the end of the names on the way to it. -/
inductive Stands : List Node → List Text → Node → Prop
  | here {nodes : List Node} {node : Node} (hnode : node ∈ nodes) : Stands nodes [node.name] node
  | within {nodes children : List Node} {name path : Text} {names : List Text} {node : Node}
      (hdirectory : .directory name path children ∈ nodes) (hnode : Stands children names node) :
      Stands nodes (name :: names) node

section Entries

variable (tree : FileTree) (root : Place)

/-- The entry of a name in the directory that names lead to from the root. -/
def entryAt? (names : List Text) (name : Text) : Option FileTree :=
  match tree.reach (root ++ names) with
  | .ok (.directory entries) => entries.lookup name
  | _ => none

/-- What a name denotes: its entry, or what opening a link reaches. -/
def denoted? (names : List Text) (name : Text) : Option FileTree :=
  match entryAt? tree root names name with
  | some (.link _) => (tree.reach (root ++ names ++ [name])).toOption
  | entry => entry

/-- A link leads to a place inside the root. -/
def StaysInside (names : List Text) (name : Text) : Prop :=
  ∀ target, entryAt? tree root names name = some (.link target) →
    ∃ place, tree.Finds [] (root ++ names ++ [name]) place ∧ root <+: place

/-- Names lead from the root over directories, and over links inside the root, to a directory. -/
inductive IsOpen : List Text → Prop
  | root : IsOpen []
  | into {names : List Text} {name : Text} {entries : List (Text × FileTree)} (hnames : IsOpen names)
      (hdenoted : denoted? tree root names name = some (.directory entries))
      (hinside : StaysInside tree root names name) : IsOpen (names ++ [name])

/-- What the listing takes an entry for, with links left out that lead back to themselves. -/
def target? (path : Place) (entry : FileTree) : Option FileTree :=
  match entryTarget tree root path entry with
  | .ok target => target
  | .error _ => none

/-- The node of a name in the directory that names lead to. -/
def nodeOf (children : List Node) (names : List Text) (name : Text) : FileTree → Option Node
  | .directory _ => some (.directory name (Text.join "/" (names ++ [name])) children)
  | .file _ => if Text.endsWith name schemaSuffix then some (.file name (Text.join "/" (names ++ [name]))) else none
  | .link _ => none

def arranged (nodes : List Node) : List Node := nodes.filter isDirectory ++ nodes.filter (!isDirectory ·)

/-- What is listed where nothing breaks the listing off. -/
def shown : (depth : Nat) → (names : List Text) → List Node
  | 0, _ => []
  | depth + 1, names =>
    match tree.reach (root ++ names) with
    | .ok (.directory entries) => arranged <| (sortedEntries entries).filterMap fun (name, entry) =>
      (target? tree root (root ++ names ++ [name]) entry).bind (nodeOf (shown depth (names ++ [name])) names name)
    | _ => []

/-- The listing of so many levels below a directory meets a link that resolution gives up. -/
inductive MeetsLoop : Nat → List Text → Prop
  | here {depth : Nat} {names : List Text} {name target : Text}
      (hentry : entryAt? tree root names name = some (.link target))
      (hloop : tree.canonicalExisting (root ++ names ++ [name]) = .error .tooManyLinks) : MeetsLoop (depth + 1) names
  | deeper {depth : Nat} {names : List Text} {name : Text} {entries : List (Text × FileTree)}
      (hdenoted : denoted? tree root names name = some (.directory entries))
      (hinside : StaysInside tree root names name) (hbelow : MeetsLoop depth (names ++ [name])) :
      MeetsLoop (depth + 1) names

end Entries

/-- What the catalog lists where nothing breaks the listing off. -/
def listed (c : Catalog) : List Node :=
  match c.tree.canonicalExisting c.root with
  | .ok root => shown c.tree root c.maxDepth.toNat []
  | .error _ => []

/-- The root is given up by resolution, or a link is that the listing meets. -/
def IsBrokenOff (c : Catalog) : Prop :=
  c.tree.canonicalExisting c.root = .error .tooManyLinks ∨
    ∃ root, c.tree.canonicalExisting c.root = .ok root ∧ MeetsLoop c.tree root c.maxDepth.toNat []

variable {tree : FileTree} {root : Place} {depth : Nat} {names : List Text} {name : Text} {entry what : FileTree}
  {entries : List (Text × FileTree)} {node : Node}

/-! ### Entries -/

theorem entryAt?_eq (hreach : tree.reach (root ++ names) = .ok (.directory entries)) (name : Text) :
    entryAt? tree root names name = entries.lookup name := by
  rw [entryAt?, hreach]

theorem reach_of_entryAt? (h : entryAt? tree root names name = some entry) :
    ∃ entries, tree.reach (root ++ names) = .ok (.directory entries) ∧ entries.lookup name = some entry := by
  rw [entryAt?] at h
  split at h
  · next entries hreach => exact ⟨entries, hreach, h⟩
  · simp at h

theorem entryAt?_of_denoted? (h : denoted? tree root names name = some what) :
    ∃ entry, entryAt? tree root names name = some entry := by
  rw [denoted?] at h
  cases hentry : entryAt? tree root names name with
  | none => simp [hentry] at h
  | some entry => exact ⟨entry, rfl⟩

theorem denoted?_link {target : Text} (h : entryAt? tree root names name = some (.link target)) :
    denoted? tree root names name = (tree.reach (root ++ names ++ [name])).toOption := by
  rw [denoted?, h]

theorem denoted?_plain (h : entryAt? tree root names name = some entry) (hplain : ∀ target, entry ≠ .link target) :
    denoted? tree root names name = some entry := by
  rw [denoted?, h]
  split
  · next target htarget => exact absurd (Option.some.inj htarget) (hplain target)
  · rfl

/-- The names of a directory that is reached are legal, and each comes once. -/
theorem isProper_of_reach (hproper : tree.isProper = true) {path : Steps}
    (hreach : tree.reach path = .ok (.directory entries)) :
    (entries.map Prod.fst).Nodup ∧ ∀ entry ∈ entries, FileTree.isLegalName entry.1 = true := by
  obtain ⟨place, _, hat⟩ := FileTree.finds_of_reach hreach
  exact FileTree.isProper_entries hproper hat

theorem mem_iff_lookup (hnodup : (entries.map Prod.fst).Nodup) :
    (name, entry) ∈ entries ↔ entries.lookup name = some entry := by
  constructor
  · intro h
    obtain ⟨before, behind, rfl⟩ := List.append_of_mem h
    rw [List.map_append, List.map_cons, List.nodup_append] at hnodup
    refine List.lookup_eq_some_iff.2 ⟨before, behind, rfl, fun other hother => ?_⟩
    simpa using (hnodup.2.2 _ (List.mem_map_of_mem hother) name (by simp)).symm
  · intro h
    obtain ⟨before, behind, rfl, _⟩ := List.lookup_eq_some_iff.1 h
    simp

theorem isLegalName_of_entryAt? (hproper : tree.isProper = true) (h : entryAt? tree root names name = some entry) :
    FileTree.isLegalName name = true := by
  obtain ⟨entries, hreach, hlookup⟩ := reach_of_entryAt? h
  obtain ⟨hnodup, hlegal⟩ := isProper_of_reach hproper hreach
  exact hlegal _ ((mem_iff_lookup hnodup).2 hlookup)

/-- An entry is taken for what its name denotes, unless it leads out of the root. -/
theorem target?_eq_some_iff (hentry : entryAt? tree root names name = some entry) :
    target? tree root (root ++ names ++ [name]) entry = some what ↔
      denoted? tree root names name = some what ∧ StaysInside tree root names name := by
  rw [target?, denoted?, StaysInside, hentry]
  cases entry with
  | file | directory => simp [entryTarget]
  | link target =>
      rw [entryTarget]
      generalize root ++ names ++ [name] = path
      cases hcanonical : tree.canonicalExisting path with
      | error fault =>
          have hnowhere (place : Place) : ¬tree.Finds [] path place := by
            rw [← FileTree.canonicalExisting_eq_ok_iff, hcanonical]
            simp
          cases fault <;> simp [hnowhere]
      | ok place =>
          have hfinds := FileTree.canonicalExisting_eq_ok_iff.1 hcanonical
          have hinside : (∃ place, tree.Finds [] path place ∧ root <+: place) ↔ root.isPrefixOf place = true := by
            rw [List.isPrefixOf_iff_prefix]
            constructor
            · rintro ⟨other, hother, hbegins⟩
              obtain rfl := hother.unique hfinds
              exact hbegins
            · intro hbegins
              exact ⟨place, hfinds, hbegins⟩
          cases hbegins : root.isPrefixOf place <;> simp [hinside, hbegins]

/-! ### What is shown -/

theorem name_of_nodeOf {children : List Node} (h : nodeOf children names name what = some node) : node.name = name := by
  cases what with
  | directory => simp [nodeOf] at h; rw [← h, Node.name]
  | file => simp [nodeOf] at h; rw [← h.2, Node.name]
  | link => simp [nodeOf] at h

theorem path_of_nodeOf {children : List Node} (h : nodeOf children names name what = some node) :
    node.path = Text.join "/" (names ++ [name]) := by
  cases what with
  | directory => simp [nodeOf] at h; rw [← h, Node.path]
  | file => simp [nodeOf] at h; rw [← h.2, Node.path]
  | link => simp [nodeOf] at h

theorem mem_sortedEntries {item : Text × FileTree} : item ∈ sortedEntries entries ↔ item ∈ entries :=
  (List.mergeSort_perm entries _).mem_iff

theorem mem_arranged {nodes : List Node} : node ∈ arranged nodes ↔ node ∈ nodes := by
  rw [arranged, List.mem_append, List.mem_filter, List.mem_filter]
  cases isDirectory node <;> simp

/-- The nodes shown in a directory are those of the names that denote something inside the root. -/
theorem mem_shown (hproper : tree.isProper = true) : node ∈ shown tree root (depth + 1) names ↔
    ∃ name what, denoted? tree root names name = some what ∧ StaysInside tree root names name ∧
      nodeOf (shown tree root depth (names ++ [name])) names name what = some node := by
  constructor
  · intro h
    rw [shown] at h
    split at h
    · next entries hreach =>
        obtain ⟨⟨name, entry⟩, hmem, hnode⟩ := List.mem_filterMap.1 (mem_arranged.1 h)
        obtain ⟨what, htarget, hnode⟩ := Option.bind_eq_some_iff.1 hnode
        have hentry : entryAt? tree root names name = some entry := by
          rw [entryAt?_eq hreach]
          exact (mem_iff_lookup (isProper_of_reach hproper hreach).1).1 (mem_sortedEntries.1 hmem)
        obtain ⟨hdenoted, hinside⟩ := (target?_eq_some_iff hentry).1 htarget
        exact ⟨name, what, hdenoted, hinside, hnode⟩
    · simp at h
  · rintro ⟨name, what, hdenoted, hinside, hnode⟩
    obtain ⟨entry, hentry⟩ := entryAt?_of_denoted? hdenoted
    obtain ⟨entries, hreach, hlookup⟩ := reach_of_entryAt? hentry
    rw [shown, hreach]
    refine mem_arranged.2 (List.mem_filterMap.2 ⟨(name, entry), ?_, ?_⟩)
    · exact mem_sortedEntries.2 ((mem_iff_lookup (isProper_of_reach hproper hreach).1).2 hlookup)
    · exact Option.bind_eq_some_iff.2 ⟨what, (target?_eq_some_iff hentry).2 ⟨hdenoted, hinside⟩, hnode⟩

/-! ### Where the listing is broken off -/

theorem filterMapM_eq_ok {α β ε : Type} {f : α → Except ε (Option β)} {g : α → Option β} {l : List α}
    (h : ∀ a ∈ l, f a = .ok (g a)) : l.filterMapM f = .ok (l.filterMap g) := by
  induction l with
  | nil => rfl
  | cons a l ih =>
      rw [List.filterMapM_cons, h a List.mem_cons_self, ih fun b hb => h b (List.mem_cons_of_mem _ hb)]
      cases hga : g a <;> simp [bind, Except.bind, pure, Except.pure, hga]

theorem filterMapM_eq_error {α β ε : Type} {f : α → Except ε (Option β)} {l : List α} {e : ε}
    (h : ∀ a ∈ l, f a = .error e ∨ ∃ b, f a = .ok b) (herror : ∃ a ∈ l, f a = .error e) :
    l.filterMapM f = .error e := by
  induction l with
  | nil => simp at herror
  | cons a l ih =>
      rw [List.filterMapM_cons]
      rcases h a List.mem_cons_self with ha | ⟨b, hb⟩
      · rw [ha]; rfl
      · have hlater : ∃ a ∈ l, f a = .error e := by
          obtain ⟨a', ha', herror⟩ := herror
          rcases List.mem_cons.1 ha' with rfl | ha'
          · simp [hb] at herror
          · exact ⟨a', ha', herror⟩
        rw [ih (fun a ha => h a (List.mem_cons_of_mem _ ha)) hlater, hb]
        cases b <;> rfl

theorem entryTarget_eq {path : Place}
    (h : ∀ target, entry = .link target → tree.canonicalExisting path ≠ .error .tooManyLinks) :
    entryTarget tree root path entry = .ok (target? tree root path entry) := by
  cases entry with
  | file | directory => rfl
  | link target =>
      have hloop := h target rfl
      rw [target?, entryTarget]
      cases hcanonical : tree.canonicalExisting path with
      | ok place => rfl
      | error fault =>
          cases fault with
          | tooManyLinks => exact absurd hcanonical hloop
          | missing | notDirectory | tooLong => rfl

/-- What the listing makes of one entry. -/
def listEntry (tree : FileTree) (root : Place) (depth : Nat) (names : List Text) (item : Text × FileTree) :
    Except Breakdown (Option Node) := do
  match ← entryTarget tree root (root ++ names ++ [item.1]) item.2 with
  | some (.directory _) =>
    return some (.directory item.1 (Text.join "/" (names ++ [item.1]))
      (← listWithin tree root depth (names ++ [item.1])))
  | some (.file _) =>
    return (if Text.endsWith item.1 schemaSuffix then some (.file item.1 (Text.join "/" (names ++ [item.1]))) else none)
  | _ => return none

theorem listWithin_succ (hreach : tree.reach (root ++ names) = .ok (.directory entries)) :
    listWithin tree root (depth + 1) names =
      (do return arranged (← (sortedEntries entries).filterMapM (listEntry tree root depth names))) := by
  rw [listWithin, hreach]
  rfl

/-- The listing of one entry is broken off at a link that is given up, or below a directory where it meets one. -/
def BreaksOff (tree : FileTree) (root : Place) (depth : Nat) (names : List Text) (item : Text × FileTree) : Prop :=
  (∃ target, item.2 = .link target ∧
      tree.canonicalExisting (root ++ names ++ [item.1]) = .error .tooManyLinks) ∨
    ∃ entries, target? tree root (root ++ names ++ [item.1]) item.2 = some (.directory entries) ∧
      MeetsLoop tree root depth (names ++ [item.1])

theorem meetsLoop_succ_iff (hproper : tree.isProper = true)
    (hreach : tree.reach (root ++ names) = .ok (.directory entries)) :
    MeetsLoop tree root (depth + 1) names ↔ ∃ item ∈ entries, BreaksOff tree root depth names item := by
  have hmem {name : Text} {entry : FileTree} :
      (name, entry) ∈ entries ↔ entryAt? tree root names name = some entry := by
    rw [entryAt?_eq hreach]
    exact mem_iff_lookup (isProper_of_reach hproper hreach).1
  constructor
  · intro h
    cases h with
    | here hentry hloop => exact ⟨_, hmem.2 hentry, .inl ⟨_, rfl, hloop⟩⟩
    | deeper hdenoted hinside hbelow =>
        obtain ⟨entry, hentry⟩ := entryAt?_of_denoted? hdenoted
        exact ⟨_, hmem.2 hentry, .inr ⟨_, (target?_eq_some_iff hentry).2 ⟨hdenoted, hinside⟩, hbelow⟩⟩
  · rintro ⟨⟨name, entry⟩, hentry, ⟨target, rfl, hloop⟩ | ⟨below, htarget, hbelow⟩⟩
    · exact .here (hmem.1 hentry) hloop
    · obtain ⟨hdenoted, hinside⟩ := (target?_eq_some_iff (hmem.1 hentry)).1 htarget
      exact .deeper hdenoted hinside hbelow

theorem listEntry_eq (names : List Text) (item : Text × FileTree)
    (hbelow : (MeetsLoop tree root depth (names ++ [item.1]) →
        listWithin tree root depth (names ++ [item.1]) = .error .linkLoop) ∧
      (¬MeetsLoop tree root depth (names ++ [item.1]) →
        listWithin tree root depth (names ++ [item.1]) = .ok (shown tree root depth (names ++ [item.1])))) :
    (BreaksOff tree root depth names item → listEntry tree root depth names item = .error .linkLoop) ∧
      (¬BreaksOff tree root depth names item → listEntry tree root depth names item =
        .ok ((target? tree root (root ++ names ++ [item.1]) item.2).bind
          (nodeOf (shown tree root depth (names ++ [item.1])) names item.1))) := by
  obtain ⟨name, entry⟩ := item
  by_cases hloop : ∃ target, entry = .link target ∧
      tree.canonicalExisting (root ++ names ++ [name]) = .error .tooManyLinks
  · refine ⟨fun _ => ?_, fun h => absurd (.inl hloop) h⟩
    obtain ⟨target, rfl, hloop⟩ := hloop
    simp only [listEntry, entryTarget, hloop]
    rfl
  · have htarget : entryTarget tree root (root ++ names ++ [name]) entry =
        .ok (target? tree root (root ++ names ++ [name]) entry) :=
      entryTarget_eq fun target htarget hcanonical => hloop ⟨target, htarget, hcanonical⟩
    simp only [BreaksOff, hloop, false_or, listEntry, htarget]
    cases hwhat : target? tree root (root ++ names ++ [name]) entry with
    | none => exact ⟨by simp, fun _ => rfl⟩
    | some what =>
        cases what with
        | link => exact ⟨by simp, fun _ => rfl⟩
        | file => exact ⟨by simp, fun _ => rfl⟩
        | directory below =>
            constructor
            · rintro ⟨_, _, hmeets⟩
              simp only [bind, Except.bind, hbelow.1 hmeets]
            · intro h
              simp only [bind, Except.bind, hbelow.2 fun hmeets => h ⟨below, rfl, hmeets⟩]
              rfl

/-- The listing is broken off where it meets a link that resolution gives up, and otherwise it is what is shown. -/
theorem listWithin_eq (hproper : tree.isProper = true) (depth : Nat) (names : List Text) :
    (MeetsLoop tree root depth names → listWithin tree root depth names = .error .linkLoop) ∧
      (¬MeetsLoop tree root depth names → listWithin tree root depth names = .ok (shown tree root depth names)) := by
  induction depth generalizing names with
  | zero => exact ⟨nofun, fun _ => rfl⟩
  | succ depth ih =>
      by_cases hreach : ∃ entries, tree.reach (root ++ names) = .ok (.directory entries)
      · obtain ⟨entries, hreach⟩ := hreach
        have hitem (item : Text × FileTree) := listEntry_eq names item (ih (names ++ [item.1]))
        rw [meetsLoop_succ_iff hproper hreach, listWithin_succ hreach, shown, hreach]
        constructor
        · rintro ⟨item, hmem, hbreaks⟩
          rw [filterMapM_eq_error (fun item _ => ?_)
            ⟨item, mem_sortedEntries.2 hmem, (hitem item).1 hbreaks⟩]
          · rfl
          · by_cases hbreaks : BreaksOff tree root depth names item
            · exact .inl ((hitem item).1 hbreaks)
            · exact .inr ⟨_, (hitem item).2 hbreaks⟩
        · intro h
          rw [filterMapM_eq_ok fun item hmem => (hitem item).2 fun hbreaks =>
            h ⟨item, mem_sortedEntries.1 hmem, hbreaks⟩]
          rfl
      · -- Where no directory is reached, nothing is listed and no link met.
        have hnone (name : Text) : entryAt? tree root names name = none := by
          rw [entryAt?]
          split
          · next entries hentries => exact absurd ⟨entries, hentries⟩ hreach
          · rfl
        have hnot : ¬MeetsLoop tree root (depth + 1) names := by
          intro h
          cases h with
          | here hentry => simp [hnone] at hentry
          | deeper hdenoted => simp [denoted?, hnone] at hdenoted
        refine ⟨fun h => absurd h hnot, fun _ => ?_⟩
        rw [listWithin, shown]
        cases hfound : tree.reach (root ++ names) with
        | error fault => rfl
        | ok what =>
            cases what with
            | directory entries => exact absurd ⟨entries, hfound⟩ hreach
            | file | link => rfl

/-- The catalog is listed, unless the listing is broken off. -/
theorem list_eq {c : Catalog} (hproper : c.tree.isProper = true) :
    (c.IsBrokenOff → c.list = .error .linkLoop) ∧ (¬c.IsBrokenOff → c.list = .ok c.listed) := by
  rw [IsBrokenOff, list, listed]
  cases c.tree.canonicalExisting c.root with
  | error fault => cases fault <;> simp
  | ok root => simpa using listWithin_eq hproper c.maxDepth.toNat []

theorem not_meetsLoop (hloops : tree.IsLoopFree) : ¬MeetsLoop tree root depth names := by
  intro h
  induction h with
  | here _ hloop => exact hloops.canonicalExisting _ hloop
  | deeper _ _ _ ih => exact ih

theorem list_eq_ok {c : Catalog} (hproper : c.tree.isProper = true) (hloops : c.tree.IsLoopFree) :
    c.list = .ok c.listed := by
  refine (list_eq hproper).2 ?_
  rintro (hroot | ⟨root, _, hmeets⟩)
  · exact hloops.canonicalExisting _ hroot
  · exact not_meetsLoop hloops hmeets

end XmlSchema.Catalog
