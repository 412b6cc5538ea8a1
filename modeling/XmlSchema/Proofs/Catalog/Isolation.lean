import XmlSchema.Proofs.Catalog.Fetching

/-!
What fetching tells of the world outside the root. A path that stays in the root is resolved and read by the contents of
the root alone, whatever they are called and wherever they stand. A path that leaves the root may come back, and so
depends on what stands outside; but it is refused unless it comes back.
-/

namespace XmlSchema

namespace FileTree

/-- Steps lead from a place to another one without leaving a tree that is part of others: they neither go above its top,
nor follow a link that begins at another top. -/
inductive StaysIn (contents : FileTree) : Place → Steps → Place → Prop
  | here (place : Place) : StaysIn contents place [] place
  | idle {place found : Place} {step : Text} {rest : Steps} (hstep : isIdle step = true)
      (hrest : StaysIn contents place rest found) : StaysIn contents place (step :: rest) found
  | upward {place found : Place} {step : Text} {rest : Steps} (hidle : isIdle step = false)
      (hstep : isUpward step = true) (hplace : place ≠ []) (hrest : StaysIn contents place.dropLast rest found) :
      StaysIn contents place (step :: rest) found
  | name {place found : Place} {step : Text} {rest : Steps} (hstep : IsName step)
      (hat : ∀ target, contents.at? (place ++ [step]) ≠ some (.link target))
      (hrest : StaysIn contents (place ++ [step]) rest found) : StaysIn contents place (step :: rest) found
  | link {place inner found : Place} {step : Text} {rest : Steps} {target : Text} (hstep : IsName step)
      (hat : contents.at? (place ++ [step]) = some (.link target)) (hrelative : isAbsolute target = false)
      (htarget : StaysIn contents place (steps target) inner) (hrest : StaysIn contents inner rest found) :
      StaysIn contents place (step :: rest) found

variable {tree contents : FileTree} {root place found : Place} {path : Steps}

theorem at?_below (hroot : tree.at? root = some contents) (place : Place) :
    tree.at? (root ++ place) = contents.at? place := by
  rw [at?_append, hroot, Option.bind_some]

/-- Steps that stay in a part of a tree lead to the same place of this part, wherever it stands. -/
theorem StaysIn.leads (hroot : tree.at? root = some contents) (h : contents.StaysIn place path found) :
    tree.Leads (root ++ place) path (root ++ found) := by
  induction h with
  | here place => exact ⟨0, .here _⟩
  | idle hstep _ ih =>
      obtain ⟨n, hn⟩ := ih
      exact ⟨n, .idle hstep hn⟩
  | upward hidle hstep hplace _ ih =>
      obtain ⟨n, hn⟩ := ih
      rw [← List.dropLast_append_of_ne_nil hplace] at hn
      exact ⟨n, .upward hidle hstep hn⟩
  | name hstep hat _ ih =>
      obtain ⟨n, hn⟩ := ih
      rw [← List.append_assoc] at hn
      refine ⟨n, .name hstep (fun target => ?_) hn⟩
      rw [List.append_assoc, at?_below hroot]
      exact hat target
  | @link place _ _ step _ target hstep hat hrelative _ _ ihtarget ihrest =>
      obtain ⟨m, hm⟩ := ihtarget
      obtain ⟨n, hn⟩ := ihrest
      have hlink : tree.at? (root ++ place ++ [step]) = some (.link target) := by
        rw [List.append_assoc, at?_below hroot, hat]
      have hstart : start (root ++ place) target = root ++ place := if_neg (by simp [hrelative])
      exact ⟨_, .link hstep hlink (hstart.symm ▸ hm) hn⟩

/-! ### Reading inside a part of a tree -/

theorem IsCanonical.below (hroot : tree.at? root = some contents) (h : tree.IsCanonical (root ++ place)) :
    contents.IsCanonical place where
  names step hstep := h.names step (List.mem_append_right root hstep)
  unlinked front step hfront target := by
    rw [← at?_below hroot, ← List.append_assoc]
    refine h.unlinked (root ++ front) step ?_ target
    rw [List.append_assoc]
    exact (List.prefix_append_right_inj root).2 hfront

/-- A walk that meets no link stays in the part of the tree where it begins. -/
theorem followSteps_below (hroot : tree.at? root = some contents) {rest front : Place}
    (h : contents.IsCanonical (front ++ rest)) (enter enter' : Place → Steps → Except Fault Place) :
    tree.followSteps enter (root ++ front) rest = (contents.followSteps enter' front rest).map (root ++ ·) := by
  induction rest generalizing front with
  | nil => rfl
  | cons step rest ih =>
      obtain ⟨hidle, hup⟩ := h.names step (by simp)
      have hbegins : front ++ step :: rest = front ++ [step] ++ rest := by simp
      have hunlinked := h.unlinked front step (hbegins ▸ List.prefix_append _ _)
      rw [hbegins] at h
      have hrest := ih h
      rw [← List.append_assoc] at hrest
      rw [followSteps, followSteps, at?_below hroot, List.append_assoc, at?_below hroot, ← List.append_assoc]
      simp only [hidle, hup, Bool.false_eq_true, if_false]
      rcases contents.at? front with _ | (_ | _ | _)
      · rfl
      · rfl
      · rfl
      · simp only
        split
        · rfl
        · cases hnext : contents.at? (front ++ [step]) with
          | none => rfl
          | some next =>
              cases next with
              | file | directory => exact hrest
              | link target => exact absurd hnext (hunlinked target)

theorem le_pathSize_append (front rest : Steps) : pathSize rest ≤ pathSize (front ++ rest) := by
  have hmono (rest : Steps) {m n : Nat} (h : m ≤ n) :
      rest.foldl (fun size step => size + Text.Utf8.size step + 1) m ≤
        rest.foldl (fun size step => size + Text.Utf8.size step + 1) n := by
    induction rest generalizing m n with
    | nil => exact h
    | cons step rest ih => exact ih (Nat.succ_le_succ (Nat.add_le_add_right h _))
  rw [pathSize, pathSize, List.foldl_append]
  exact hmono rest (Nat.zero_le _)

/-- What opening a place in a part of a tree comes to, if its path is not too long, is found in this part alone. -/
theorem reach_below (hproper : tree.isProper = true) (hroot : tree.at? root = some contents)
    (h : tree.IsCanonical (root ++ place)) (hsize : pathSize (root ++ place) ≤ maxPathSize) :
    tree.reach (root ++ place) = contents.reach place := by
  have hnames (name : Text) (hname : name ∈ root) : Text.Utf8.size name ≤ maxNameSize :=
    (isLegalName_iff.1 ((isProper_at? hproper hroot).2 name hname)).2.2
  have hwalk : tree.follow maxLinks [] (root ++ place) = (contents.follow maxLinks [] place).map (root ++ ·) := by
    have hcontents : contents.IsCanonical ([] ++ place) := h.below hroot
    have hbelow := followSteps_below hroot hcontents (tree.follow 39) (contents.follow 39)
    rw [List.append_nil] at hbelow
    exact ((h.of_prefix (List.prefix_append root place)).followSteps_append hroot hnames _ _).trans hbelow
  have hlocate : tree.locate (root ++ place) = (contents.locate place).map (root ++ ·) := by
    rw [locate, locate, ← pathSize, ← pathSize, if_neg (Nat.not_lt.2 hsize),
      if_neg (Nat.not_lt.2 ((le_pathSize_append root place).trans hsize)), hwalk]
  rw [reach, reach, hlocate]
  cases contents.locate place with
  | error fault => rfl
  | ok found =>
      simp only [Except.map, bind, Except.bind, at?_below hroot]

end FileTree

namespace Catalog

open FileTree (Place Steps)

variable {tree : FileTree} {root place : Place} {entries : List (Text × FileTree)}

theorem readPlace_below (hproper : tree.isProper = true) (hroot : tree.at? root = some (.directory entries))
    (h : tree.IsCanonical (root ++ place)) (hsize : FileTree.pathSize (root ++ place) ≤ FileTree.maxPathSize)
    (path : Text) : readPlace tree (root ++ place) path = readPlace (.directory entries) place path := by
  have hreach := FileTree.reach_below hproper hroot h hsize
  rw [readPlace, readPlace, hreach]
  rcases List.eq_nil_or_concat' place with rfl | ⟨front, name, rfl⟩
  · -- A directory is no schema, whatever its name.
    have htop : (FileTree.directory entries).reach [] = .ok (.directory entries) := rfl
    rw [htop]
    cases Text.endsWith ((root ++ []).getLastD []) schemaSuffix <;> rfl
  · rw [← List.append_assoc, List.getLastD_concat, List.getLastD_concat]

/-- Two catalogs whose roots hold the same, wherever they stand. -/
structure SameContents (c c' : Catalog) (root root' : Place) (entries : List (Text × FileTree)) : Prop where
  proper : c.tree.isProper = true
  proper' : c'.tree.isProper = true
  leads : c.tree.Leads [] c.root root
  leads' : c'.tree.Leads [] c'.root root'
  holds : c.tree.at? root = some (.directory entries)
  holds' : c'.tree.at? root' = some (.directory entries)

/-- The system opens a place below a root. -/
def Opens (root place : Place) : Prop := FileTree.pathSize (root ++ place) ≤ FileTree.maxPathSize

variable {c c' : Catalog} {root' place' : Place} {path : Text}

/-- What is fetched inside the root is a matter of the contents of the root. -/
theorem read_below (hproper : c.tree.isProper = true) (hroot : c.tree.Leads [] c.root root)
    (hholds : c.tree.at? root = some (.directory entries))
    (hplace : c.tree.Leads [] (c.joined (Text.Percent.decode path)) (root ++ place)) (hopens : Opens root place) :
    c.read path =
      if (Text.Percent.decode path).any (·.val = 0) then .error .nulByte
      else if (Text.Percent.decode path).all isWritable then
        (readPlace (.directory entries) place (Text.Percent.decode path)).bind (textOf (Text.Percent.decode path))
      else .error (.brokenOff .unwritablePath) := by
  have hinside : root.isPrefixOf (root ++ place) = true := List.isPrefixOf_iff_prefix.2 (List.prefix_append _ _)
  obtain ⟨n, hn⟩ := hplace
  rw [read_eq hroot ⟨n, hn⟩, if_pos hinside, readPlace_below hproper hholds (hn.isCanonical .nil) hopens]

/-- Outside the root all places are alike. -/
theorem read_beyond (hroot : c.tree.Leads [] c.root root)
    (hplace : c.tree.Leads [] (c.joined (Text.Percent.decode path)) place) (houtside : ¬root <+: place) :
    c.read path =
      if (Text.Percent.decode path).any (·.val = 0) then .error .nulByte
      else if (Text.Percent.decode path).all isWritable then .error .outside
      else .error (.brokenOff .unwritablePath) := by
  have hbeyond : ¬root.isPrefixOf place = true := fun h => houtside (List.isPrefixOf_iff_prefix.1 h)
  rw [read_eq hroot hplace, if_neg hbeyond]

theorem leads_of_staysIn (hroot : c.tree.Leads [] c.root root) (hholds : c.tree.at? root = some (.directory entries))
    (hrelative : FileTree.isAbsolute path = false)
    (hstays : (FileTree.directory entries).StaysIn [] (FileTree.steps path) place) :
    c.tree.Leads [] (c.joined path) (root ++ place) := by
  have hbelow := hstays.leads hholds
  rw [List.append_nil] at hbelow
  rw [joined, if_neg (by simp [hrelative])]
  exact FileTree.Leads.append_iff.2 ⟨root, hroot, hbelow⟩

/-- Fetching tells nothing of what is outside the root but whether a path that leaves the root comes back: the same is
fetched, or refused, by a path that stays inside the root, by one that leads to the same place inside both roots, and by
one that leads out of both. -/
theorem read_sameContents {entries : List (Text × FileTree)} (h : SameContents c c' root root' entries) (path : Text) :
    (∀ place, FileTree.isAbsolute (Text.Percent.decode path) = false →
      (FileTree.directory entries).StaysIn [] (FileTree.steps (Text.Percent.decode path)) place →
      Opens root place → Opens root' place → c.read path = c'.read path) ∧
    (∀ place, c.tree.Leads [] (c.joined (Text.Percent.decode path)) (root ++ place) →
      c'.tree.Leads [] (c'.joined (Text.Percent.decode path)) (root' ++ place) →
      Opens root place → Opens root' place → c.read path = c'.read path) ∧
    (∀ place place', c.tree.Leads [] (c.joined (Text.Percent.decode path)) place →
      c'.tree.Leads [] (c'.joined (Text.Percent.decode path)) place' → ¬root <+: place → ¬root' <+: place' →
      c.read path = c'.read path) := by
  have hinside (place : Place) (hplace : c.tree.Leads [] (c.joined (Text.Percent.decode path)) (root ++ place))
      (hplace' : c'.tree.Leads [] (c'.joined (Text.Percent.decode path)) (root' ++ place)) (hopens : Opens root place)
      (hopens' : Opens root' place) : c.read path = c'.read path := by
    rw [read_below h.proper h.leads h.holds hplace hopens, read_below h.proper' h.leads' h.holds' hplace' hopens']
  refine ⟨fun place hrelative hstays => hinside place ?_ ?_, hinside, ?_⟩
  · exact leads_of_staysIn h.leads h.holds hrelative hstays
  · exact leads_of_staysIn h.leads' h.holds' hrelative hstays
  · intro place place' hplace hplace' houtside houtside'
    rw [read_beyond h.leads hplace houtside, read_beyond h.leads' hplace' houtside']

/-- One schema in a root of some name. -/
def rootedAt (name : Text) : Catalog where
  tree := .directory [(name, .directory [("a.xsd", .file [0x6B])])]
  root := [name]

theorem sameContents_rootedAt :
    SameContents (rootedAt "root") (rootedAt "other") ["root"] ["other"] [("a.xsd", .file [0x6B])] where
  proper := by decide
  proper' := by decide
  leads := FileTree.resolution_eq_place_iff.1 (by cbv)
  leads' := FileTree.resolution_eq_place_iff.1 (by cbv)
  holds := by rfl
  holds' := by rfl

theorem read_sameContents_rootedAt :
    SameContents (rootedAt "root") (rootedAt "other") ["root"] ["other"] [("a.xsd", .file [0x6B])] ∧
      (rootedAt "root").read "b/../a.xsd" = (rootedAt "other").read "b/../a.xsd" := by
  have hsteps : FileTree.steps (Text.Percent.decode "b/../a.xsd") = ["b", "..", "a.xsd"] := by cbv
  have hstays : (FileTree.directory [("a.xsd", .file [0x6B])]).StaysIn []
      (FileTree.steps (Text.Percent.decode "b/../a.xsd")) ["a.xsd"] := by
    rw [hsteps]
    have hb (target : Text) : none ≠ some (FileTree.link target) := (Option.some_ne_none _).symm
    have ha (target : Text) : some (FileTree.file [0x6B]) ≠ some (.link target) := by simp
    refine .name ⟨by decide, by decide⟩ hb (.upward (by decide) (by decide) (by decide) ?_)
    exact .name ⟨by decide, by decide⟩ ha (.here _)
  have hopens : Opens ["root"] ["a.xsd"] := show _ ≤ _ by decide
  have hopens' : Opens ["other"] ["a.xsd"] := show _ ≤ _ by decide
  exact ⟨sameContents_rootedAt,
    (read_sameContents sameContents_rootedAt "b/../a.xsd").1 ["a.xsd"] (by decide) hstays hopens hopens'⟩

/-- A path that leaves the root and comes back tells what the root is called. -/
theorem sameContents_told_apart :
    SameContents (rootedAt "root") (rootedAt "other") ["root"] ["other"] [("a.xsd", .file [0x6B])] ∧
      (rootedAt "root").read "../root/a.xsd" = .ok "k" ∧
      (rootedAt "other").read "../root/a.xsd" = .error .outside :=
  ⟨sameContents_rootedAt, by cbv, by cbv⟩

end Catalog

end XmlSchema
