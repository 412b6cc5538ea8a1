import Mathlib
import XmlSchema.Failure
import XmlSchema.Proofs.FileTree.Search

/-!
Containment: for every path that leads somewhere, what is read lies at that place, inside the root; a path that leads
out of the root is refused, whatever stands there. A path over a link that leads back to itself leads nowhere, and is
not covered: what remains behind such a link is taken literally, with the links in it.
-/

namespace XmlSchema.Catalog

open FileTree (Place Steps)

variable {c : Catalog} {path : Text} {root place : Place}

/-- The path from the top that a decoded path stands for. -/
def joined (c : Catalog) (path : Text) : Steps :=
  if FileTree.isAbsolute path then FileTree.steps path else c.root ++ FileTree.steps path

/-- A text is what a schema file inside the root holds, with line feeds at the ends of lines. -/
structure Holds (c : Catalog) (root place : Place) (text : Text) : Prop where
  canonical : c.tree.IsCanonical place
  inside : root <+: place
  named : Text.endsWith (place.getLastD []) schemaSuffix = true
  content : ∃ bytes decoded, c.tree.at? place = some (.file bytes) ∧ Text.Utf8.decode? bytes = some decoded ∧
    text = Text.withLineFeeds decoded

/-- Joining to the canonical root changes nothing about where a path leads. -/
theorem placeOf_eq (hroot : c.tree.Leads [] c.root root) (hplace : c.tree.Leads [] (c.joined path) place) :
    placeOf c.tree root path = .ok place := by
  rw [joined] at hplace
  rw [placeOf, FileTree.movingSteps]
  split
  · next habsolute =>
      rw [if_pos habsolute] at hplace
      exact hplace.filter.canonical_eq
  · next habsolute =>
      rw [if_neg habsolute] at hplace
      obtain ⟨middle, hmiddle, hsteps⟩ := FileTree.Leads.append_iff.1 hplace
      obtain rfl := hmiddle.unique hroot
      obtain ⟨n, hn⟩ := hroot
      have hcanonical := hn.isCanonical .nil
      exact (FileTree.Leads.append_iff.2 ⟨_, hcanonical.leads, hsteps.filter⟩).canonical_eq

/-- Bytes are read from a schema file at the very place. -/
theorem readPlace_eq_ok {bytes : List UInt8} (hcanonical : c.tree.IsCanonical place)
    (h : readPlace c.tree place path = .ok bytes) :
    Text.endsWith (place.getLastD []) schemaSuffix = true ∧ c.tree.at? place = some (.file bytes) := by
  rw [readPlace] at h
  split at h
  · next hnamed =>
      split at h
      · next content hreach =>
          obtain rfl := Except.ok.inj h
          exact ⟨hnamed, hcanonical.reach hreach⟩
      · simp at h
      · simp at h
  · simp at h

theorem holds_of_read {text : Text} (hroot : c.tree.Leads [] c.root root)
    (hplace : c.tree.Leads [] (c.joined (Text.Percent.decode path)) place) (h : c.read path = .ok text) :
    c.Holds root place text := by
  simp only [read, hroot.canonical_eq, placeOf_eq hroot hplace, Except.mapError, bind, Except.bind] at h
  split at h
  · cases h
  · split at h
    · split at h
      · next hinside =>
          obtain ⟨n, hn⟩ := hplace
          have hcanonical := hn.isCanonical .nil
          cases hbytes : readPlace c.tree place (Text.Percent.decode path) with
          | error fault => simp [hbytes] at h
          | ok bytes =>
              obtain ⟨hnamed, hat⟩ := readPlace_eq_ok hcanonical hbytes
              simp only [hbytes] at h
              split at h
              · next decoded hdecoded =>
                  obtain rfl := Except.ok.inj h
                  exact ⟨hcanonical, List.isPrefixOf_iff_prefix.1 hinside, hnamed, bytes, decoded, hat, hdecoded, rfl⟩
              · cases h
      · cases h
    · cases h

theorem read_outside (hroot : c.tree.Leads [] c.root root)
    (hplace : c.tree.Leads [] (c.joined (Text.Percent.decode path)) place) (houtside : ¬root <+: place)
    (hwritable : (Text.Percent.decode path).all isWritable = true) :
    ∃ fault, c.read path = .error fault ∧ (Failure.unread fault).code = .pathTraversal := by
  have hprefix : root.isPrefixOf place = false := by simpa [← List.isPrefixOf_iff_prefix] using houtside
  simp only [read, hroot.canonical_eq, placeOf_eq hroot hplace, Except.mapError, bind, Except.bind, hwritable, hprefix]
  split
  · exact ⟨.nulByte, rfl, rfl⟩
  · exact ⟨.outside, rfl, rfl⟩

/-- Where a path leads decides: what is read is what a schema file at this place inside the root holds, and a place
outside the root is refused, whether or not anything stands there. -/
theorem read_contained (hroot : c.tree.Leads [] c.root root)
    (hplace : c.tree.Leads [] (c.joined (Text.Percent.decode path)) place) :
    (∀ text, c.read path = .ok text → c.Holds root place text) ∧
      (¬root <+: place → (Text.Percent.decode path).all isWritable = true →
        ∃ fault, c.read path = .error fault ∧ (Failure.unread fault).code = .pathTraversal) :=
  ⟨fun _ h => holds_of_read hroot hplace h, read_outside hroot hplace⟩

/-- A root with a schema, a link out of it, and a link that leads to itself. -/
def sample : Catalog where
  tree := .directory [("secret", .file [0x73]), ("root", .directory
    [("a.xsd", .file [0x61]), ("out.xsd", .link "../secret"), ("loop", .link "loop")])]
  root := ["root"]

theorem sample_contained :
    (sample.read "a.xsd" = .ok "a" ∧ sample.Holds ["root"] ["root", "a.xsd"] "a") ∧
      ∃ fault, sample.read "out.xsd" = .error fault ∧ (Failure.unread fault).code = .pathTraversal := by
  have hroot : sample.tree.Leads [] sample.root ["root"] := FileTree.resolution_eq_place_iff.1 (by cbv)
  have hinside : sample.tree.Leads [] (sample.joined (Text.Percent.decode "a.xsd")) ["root", "a.xsd"] :=
    FileTree.resolution_eq_place_iff.1 (by cbv)
  have houtside : sample.tree.Leads [] (sample.joined (Text.Percent.decode "out.xsd")) ["secret"] :=
    FileTree.resolution_eq_place_iff.1 (by cbv)
  have hread : sample.read "a.xsd" = .ok "a" := by cbv
  exact ⟨⟨hread, (read_contained hroot hinside).1 _ hread⟩,
    (read_contained hroot houtside).2 (by decide) (by decide)⟩

/-- Behind a link that leads back to itself, a link out of the root is taken literally, and followed when its file is
opened. -/
example : sample.read "loop/../out.xsd" = .ok "s" := by cbv

end XmlSchema.Catalog
