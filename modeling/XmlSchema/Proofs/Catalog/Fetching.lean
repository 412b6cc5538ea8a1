import XmlSchema.Proofs.Catalog.Containment
import XmlSchema.Proofs.Catalog.Contents

/-!
Fetching what is listed. The listing goes by the name of an entry and writes its names as they are. Fetching decodes a
path, and goes by the name of the place where the path leads. So what is listed is fetched under each path that decodes
to the listed one, but not where a link leads to a file with a name of another kind.
-/

namespace XmlSchema.Catalog

open FileTree (Place Steps)

variable {c : Catalog} {root place : Place} {names : List Text} {given path : Text} {content : List UInt8}

/-! ### Paths of listed files -/

theorem plain_of_mem_join (hlegal : ∀ name ∈ names, FileTree.isLegalName name = true) :
    ∀ p ∈ Text.join "/" names, p.val ≠ 0 ∧ isWritable p = true := by
  intro p hp
  rcases Text.mem_join hp with hslash | ⟨name, hname, hmem⟩
  · obtain rfl := List.mem_singleton.1 hslash
    decide
  · obtain ⟨hnul, _, hwritable⟩ := (FileTree.isLegalName_iff.1 (hlegal name hname)).2.1 p hmem
    exact ⟨hnul, hwritable⟩

theorem isAbsolute_join (hlegal : ∀ name ∈ names, FileTree.isLegalName name = true) (hne : names ≠ []) :
    FileTree.isAbsolute (Text.join "/" names) = false := by
  obtain ⟨name, names, rfl⟩ := List.exists_cons_of_ne_nil hne
  obtain ⟨⟨hidle, _⟩, hplain, _⟩ := FileTree.isLegalName_iff.1 (hlegal name List.mem_cons_self)
  cases name with
  | nil => simp [FileTree.isIdle] at hidle
  | cons p name =>
      have hp : CodePoint.ofChar '/' ≠ p := (hplain p List.mem_cons_self).2.1.symm
      have hdrop (rest : Text) : Text.dropPrefix? "/" (p :: rest) = none := if_neg hp
      rw [FileTree.isAbsolute, Text.startsWith, Text.join, List.cons_append, hdrop, Option.isSome_none]

/-! ### Fetching -/

/-- What is made of the bytes of a schema. -/
def textOf (path : Text) (content : List UInt8) : Except ReadFault Text :=
  match Text.Utf8.decode? content with
  | some text => .ok (Text.withLineFeeds text)
  | none => .error (.notUnicode path)

theorem read_eq (hroot : c.tree.Leads [] c.root root)
    (hplace : c.tree.Leads [] (c.joined (Text.Percent.decode given)) place) :
    c.read given =
      if (Text.Percent.decode given).any (·.val = 0) then .error .nulByte
      else if (Text.Percent.decode given).all isWritable then
        if root.isPrefixOf place then
          (readPlace c.tree place (Text.Percent.decode given)).bind (textOf (Text.Percent.decode given))
        else .error .outside
      else .error (.brokenOff .unwritablePath) := by
  simp only [read, hroot.canonical_eq, placeOf_eq hroot hplace, Except.mapError, bind, Except.bind]
  cases (Text.Percent.decode given).any (·.val = 0) <;> cases (Text.Percent.decode given).all isWritable <;>
    cases root.isPrefixOf place <;> rfl

theorem joined_eq (hlegal : ∀ name ∈ names, FileTree.isLegalName name = true) (hne : names ≠ []) :
    c.joined (Text.join "/" names) = c.root ++ names := by
  rw [joined, isAbsolute_join hlegal hne, if_neg Bool.false_ne_true, steps_join hlegal hne]

/-- What is fetched at a path that leads to a file inside the root. -/
theorem read_file (hproper : c.tree.isProper = true) (hlegal : ∀ name ∈ names, FileTree.isLegalName name = true)
    (hne : names ≠ []) (hroot : c.tree.Finds [] c.root root) (hplace : c.tree.Finds [] (c.root ++ names) place)
    (hinside : root <+: place) (hat : c.tree.at? place = some (.file content))
    (hgiven : Text.Percent.decode given = Text.join "/" names) :
    c.read given =
      if Text.endsWith (place.getLastD []) schemaSuffix then
        if FileTree.pathSize place ≤ FileTree.maxPathSize then textOf (Text.join "/" names) content
        else .error (.brokenOff .nameTooLong)
      else .error (.notFound (Text.join "/" names)) := by
  have hnul : ¬(Text.join "/" names).any (·.val = 0) = true := by
    rw [List.any_eq_true]
    rintro ⟨p, hp, hzero⟩
    exact (plain_of_mem_join hlegal p hp).1 (by simpa using hzero)
  have hwritable : (Text.join "/" names).all isWritable = true :=
    List.all_eq_true.2 fun p hp => (plain_of_mem_join hlegal p hp).2
  have hjoined : c.tree.Leads [] (c.joined (Text.Percent.decode given)) place := by
    rw [hgiven, joined_eq hlegal hne]
    exact hplace.leads
  rw [read_eq hroot.leads hjoined, hgiven, if_neg hnul, if_pos hwritable, if_pos (List.isPrefixOf_iff_prefix.2 hinside),
    readPlace, (hplace.isCanonical .nil).reach_eq hproper hat]
  by_cases hsize : FileTree.pathSize place ≤ FileTree.maxPathSize
  · rw [if_pos hsize, if_pos hsize]
    split <;> rfl
  · rw [if_neg hsize, if_neg hsize]
    split <;> rfl

/-- What is fetched of a listed file: its text, under each path that decodes to the listed one, as this one itself does
without percent signs, if the place of the file has the name of a schema and is not too deep to be opened. -/
structure Fetched (c : Catalog) (names : List Text) (path : Text) (place : Place) (content : List UInt8) : Prop where
  leads : c.tree.Finds [] (c.root ++ names) place
  holds : c.tree.at? place = some (.file content)
  unescaped : (∀ p ∈ path, p ≠ CodePoint.ofChar '%') → Text.Percent.decode path = path
  text : ∀ given decoded, Text.Percent.decode given = path → Text.Utf8.decode? content = some decoded →
    c.read given =
      if Text.endsWith (place.getLastD []) schemaSuffix then
        if FileTree.pathSize place ≤ FileTree.maxPathSize then .ok (Text.withLineFeeds decoded)
        else .error (.brokenOff .nameTooLong)
      else .error (.notFound path)

theorem fetched_of_stands (hproper : c.tree.isProper = true) {name : Text}
    (h : Stands c.listed names (.file name path)) : ∃ place content, c.Fetched names path place content := by
  rw [listed] at h
  cases hcanonical : c.tree.canonicalExisting c.root with
  | error fault =>
      rw [hcanonical] at h
      cases h with
      | here hnode => simp at hnode
      | within hnode => simp at hnode
  | ok root =>
      rw [hcanonical] at h
      have hroot := FileTree.canonicalExisting_eq_ok_iff.1 hcanonical
      have hshows := shows_shown hproper hroot.self c.maxDepth.toNat
      obtain ⟨_, _, content, hseen⟩ := (hshows.files names).1 ⟨name, path, h⟩
      obtain ⟨place, hplace, hinside, hat⟩ := hseen.located hproper hroot.self
      have hfound : c.tree.Finds [] (c.root ++ names) place := by
        obtain ⟨middle, hmiddle, hlast⟩ := FileTree.Finds.append_iff.1 hplace
        obtain rfl := hmiddle.unique hroot.self
        exact FileTree.Finds.append_iff.2 ⟨middle, hroot, hlast⟩
      refine ⟨place, content, hfound, hat, Text.Percent.decode_plain, fun given decoded hgiven hdecoded => ?_⟩
      have hpath : path = Text.join "/" names := hshows.path names _ h
      rw [hpath] at hgiven ⊢
      rw [read_file hproper (hseen.isLegalName hproper) hseen.ne_nil hroot hfound hinside hat hgiven, textOf, hdecoded]

/-- Every file that is listed is the one that its names lead to, and can be fetched. -/
theorem fetch_listed (c : Catalog) (hproper : c.tree.isProper = true) (hloops : c.tree.IsLoopFree) :
    ∃ nodes, c.list = .ok nodes ∧ ∀ names name path, Stands nodes names (.file name path) →
      ∃ place content, c.Fetched names path place content :=
  ⟨c.listed, list_eq_ok hproper hloops, fun _ _ _ hstands => fetched_of_stands hproper hstands⟩

theorem linked_fetched : linked.tree.isProper = true ∧ linked.tree.IsLoopFree ∧
    ∃ nodes, linked.list = .ok nodes ∧ ∀ names name path, Stands nodes names (.file name path) →
      ∃ place content, linked.Fetched names path place content :=
  ⟨linked_isProper, linked_isLoopFree, fetch_listed linked linked_isProper linked_isLoopFree⟩

/-- The path of a file as it is listed leads to another name when it holds an escape. -/
example : (Catalog.mk (.directory [("a%41.xsd", .file [0x6B])]) [] 1).read "a%41.xsd" =
    .error (.notFound "aA.xsd") := by
  cbv

/-- A link with the name of a schema is listed, but not fetched, where it leads to a file without such a name. -/
example : (Catalog.mk (.directory [("data", .file [0x6B]), ("a.xsd", .link "data")]) [] 1).read "a.xsd" =
    .error (.notFound "a.xsd") := by
  cbv

end XmlSchema.Catalog
