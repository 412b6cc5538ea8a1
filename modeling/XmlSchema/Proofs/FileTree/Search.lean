import XmlSchema.Proofs.FileTree.Resolution
import Mathlib.Data.List.Perm.Subperm

/-!
The search for canonical places finds the place that a path leads to, for every path that leads somewhere: a link that
is met again inside its own target would lead back to itself, and links that are inside one another are never more than
there are in the tree.
-/

namespace XmlSchema.FileTree

variable {tree : FileTree} {place found : Place} {path : Steps} {n : Nat}

/-! ### The links of a tree -/

mutual

/-- The places of all links. -/
def linkPlaces : FileTree → List Place
  | file _ => []
  | link _ => [[]]
  | directory entries => linkPlacesIn entries

def linkPlacesIn : List (Text × FileTree) → List Place
  | [] => []
  | (name, tree) :: entries => (linkPlaces tree).map (name :: ·) ++ linkPlacesIn entries

end

mutual

theorem length_linkPlaces : (tree : FileTree) → tree.linkPlaces.length = tree.linkCount
  | file _ | link _ => by simp [linkPlaces, linkCount]
  | directory entries => by simp [linkPlaces, linkCount, length_linkPlacesIn entries]

theorem length_linkPlacesIn : (entries : List (Text × FileTree)) → (linkPlacesIn entries).length = linkCountIn entries
  | [] => by simp [linkPlacesIn, linkCountIn]
  | (name, tree) :: entries => by
    simp [linkPlacesIn, linkCountIn, length_linkPlaces tree, length_linkPlacesIn entries]

end

theorem mem_linkPlacesIn {entries : List (Text × FileTree)} {name : Text} (hlookup : entries.lookup name = some tree)
    (hplace : place ∈ tree.linkPlaces) : name :: place ∈ linkPlacesIn entries := by
  induction entries with
  | nil => simp at hlookup
  | cons entry entries ih =>
      obtain ⟨other, below⟩ := entry
      rw [linkPlacesIn, List.mem_append]
      by_cases hname : name == other
      · obtain rfl := eq_of_beq hname
        obtain rfl : below = tree := by simpa using hlookup
        exact .inl (List.mem_map_of_mem hplace)
      · exact .inr (ih (by simpa [List.lookup_cons, hname] using hlookup))

theorem mem_linkPlaces {target : Text} (hat : tree.at? place = some (.link target)) : place ∈ tree.linkPlaces := by
  induction place generalizing tree with
  | nil =>
      obtain rfl : tree = .link target := by simpa [at?] using hat
      simp [linkPlaces]
  | cons name place ih =>
      rw [at?] at hat
      split at hat
      · next below hchild =>
          cases tree with
          | file | link => simp [child?] at hchild
          | directory entries => exact mem_linkPlacesIn hchild (ih hat)
      · simp at hat

/-! ### The search finds where steps lead -/

/-- A link leads to a place over so many others. -/
def LinkLeadsOver (tree : FileTree) (n : Nat) (origin : Place) (found : Place) : Prop :=
  ∃ target, tree.at? origin = some (.link target) ∧
    tree.LeadsOver n (start origin.dropLast target) (steps target) found

/-- Steps are taken to where they lead if the links on the way are entered to where these lead. -/
theorem LeadsOver.resolveSteps_eq {enter : Place → Place → Steps → Resolution}
    (h : tree.LeadsOver n place path found)
    (henter : ∀ m < n, ∀ origin target inner, tree.at? origin = some (.link target) →
      tree.LeadsOver m (start origin.dropLast target) (steps target) inner →
      enter origin (start origin.dropLast target) (steps target) = .place inner) :
    resolveSteps tree false enter place path = .place found := by
  induction h with
  | here => rfl
  | idle hstep _ ih =>
      rw [resolveSteps, if_pos hstep]
      exact ih henter
  | upward hidle hstep _ ih =>
      rw [resolveSteps, if_neg (by simp [hidle]), if_pos hstep]
      exact ih henter
  | name hstep hat _ ih =>
      rw [resolveSteps, if_neg (by simp [hstep.1]), if_neg (by simp [hstep.2])]
      split
      · next target hat' => exact absurd hat' (hat target)
      · exact ih henter
      · exact ih henter
  | @link m n place inner _ step _ target hstep hat htarget _ _ ih =>
      have hinner := henter m (by omega) (place ++ [step]) target inner hat (by simpa using htarget)
      simp only [List.dropLast_concat] at hinner
      rw [resolveSteps, if_neg (by simp [hstep.1]), if_neg (by simp [hstep.2])]
      simp only [hat, hinner]
      exact ih fun k hk => henter k (by omega)

/-- Links that are inside one another while steps lead over so many links: the targets of all of them lead over no
fewer. -/
structure Entered (tree : FileTree) (n : Nat) (active : List Place) : Prop where
  nodup : active.Nodup
  leads : ∀ origin ∈ active, ∃ m ≥ n, ∃ found, tree.LinkLeadsOver m origin found

theorem Entered.nil : tree.Entered n [] where
  nodup := .nil
  leads := by simp

/-- A link whose target leads over fewer links is not one of them. -/
theorem Entered.cons {active : List Place} {m : Nat} {origin : Place} (h : tree.Entered n active) (hm : m < n)
    (hlink : tree.LinkLeadsOver m origin found) : origin ∉ active ∧ tree.Entered m (origin :: active) := by
  have hfresh : origin ∉ active := fun horigin => by
    obtain ⟨k, hk, other, target, hat, hleads⟩ := h.leads origin horigin
    obtain ⟨target', hat', hleads'⟩ := hlink
    obtain rfl := FileTree.link.inj (Option.some.inj (hat.symm.trans hat'))
    obtain ⟨rfl, _⟩ := hleads.unique hleads'
    omega
  refine ⟨hfresh, List.nodup_cons.2 ⟨hfresh, h.nodup⟩, fun other hother => ?_⟩
  rcases List.mem_cons.1 hother with rfl | hother
  · exact ⟨m, Nat.le_refl m, found, hlink⟩
  · obtain ⟨k, hk, inner, hother⟩ := h.leads other hother
    exact ⟨k, by omega, inner, hother⟩

theorem Entered.length_le {active : List Place} (h : tree.Entered n active) : active.length ≤ tree.linkCount := by
  have hsubset : active ⊆ tree.linkPlaces := fun origin horigin => by
    obtain ⟨_, _, _, _, hat, _⟩ := h.leads origin horigin
    exact mem_linkPlaces hat
  exact length_linkPlaces tree ▸ (h.nodup.subperm hsubset).length_le

theorem LeadsOver.resolveWithin_eq {depth : Nat} {active : List Place} (h : tree.LeadsOver n place path found)
    (hactive : tree.Entered n active) (hdepth : tree.linkCount ≤ depth + active.length) :
    resolveWithin tree false depth active place path = .place found := by
  induction depth generalizing n active place path found with
  | zero =>
      refine h.resolveSteps_eq fun m hm origin target inner hat hleads => ?_
      -- One more link than there are cannot be entered.
      have hmore := (hactive.cons hm ⟨target, hat, hleads⟩).2.length_le
      rw [List.length_cons] at hmore
      omega
  | succ depth ih =>
      refine h.resolveSteps_eq fun m hm origin target inner hat hleads => ?_
      obtain ⟨hfresh, hentered⟩ := hactive.cons hm ⟨target, hat, hleads⟩
      rw [if_neg (by simpa using hfresh)]
      exact ih hleads hentered (by rw [List.length_cons]; omega)

/-! ### What the search finds is where steps lead -/

theorem leads_of_resolveSteps {enter : Place → Place → Steps → Resolution}
    (henter : ∀ origin place path found, enter origin place path = .place found → tree.Leads place path found)
    (h : resolveSteps tree false enter place path = .place found) : tree.Leads place path found := by
  induction path generalizing place with
  | nil =>
      obtain rfl := Resolution.place.inj h
      exact ⟨0, .here place⟩
  | cons step path ih =>
      rw [resolveSteps] at h
      split at h
      · next hidle =>
          obtain ⟨n, hn⟩ := ih h
          exact ⟨n, .idle hidle hn⟩
      · next hidle =>
          split at h
          · next hup =>
              obtain ⟨n, hn⟩ := ih h
              exact ⟨n, .upward (by simpa using hidle) hup hn⟩
          · next hup =>
              have hstep : IsName step := ⟨by simpa using hidle, by simpa using hup⟩
              split at h
              · next target hat =>
                  split at h
                  · next inner hinner =>
                      obtain ⟨m, hm⟩ := henter _ _ _ _ hinner
                      obtain ⟨n, hn⟩ := ih h
                      exact ⟨_, .link hstep hat hm hn⟩
                  · simp at h
                  · simp at h
              · next other hother hat =>
                  obtain ⟨n, hn⟩ := ih h
                  exact ⟨n, .name hstep (fun target htarget => hother target (Option.some.inj (hat.symm.trans htarget)))
                    hn⟩
              · next hat =>
                  obtain ⟨n, hn⟩ := ih h
                  exact ⟨n, .name hstep (by simp [hat]) hn⟩

theorem leads_of_resolveWithin {depth : Nat} {active : List Place}
    (h : resolveWithin tree false depth active place path = .place found) : tree.Leads place path found := by
  induction depth generalizing active place path found with
  | zero => exact leads_of_resolveSteps (fun _ _ _ _ henter => by simp at henter) h
  | succ depth ih =>
      refine leads_of_resolveSteps (fun origin place path found henter => ?_) h
      split at henter
      · simp at henter
      · exact ih henter

/-- The search finds where a path leads, and nothing where it leads nowhere. -/
theorem resolution_eq_place_iff : tree.resolution false path = .place found ↔ tree.Leads [] path found := by
  constructor
  · exact leads_of_resolveWithin
  · rintro ⟨n, h⟩
    exact h.resolveWithin_eq .nil (by simp)

theorem Leads.canonical_eq (h : tree.Leads [] path found) : tree.canonical path = .ok found := by
  rw [canonical, resolution_eq_place_iff.2 h]

/-! ### Opening what stands at a canonical place -/

/-- A walk along names, none of which is a link, stays with them. -/
theorem IsCanonical.followSteps {enter : Place → Steps → Except Fault Place} {rest : Steps}
    (h : tree.IsCanonical (place ++ rest)) (hfollow : followSteps tree enter place rest = .ok found) :
    found = place ++ rest := by
  induction rest generalizing place with
  | nil => simpa [FileTree.followSteps] using hfollow.symm
  | cons step rest ih =>
      obtain ⟨hidle, hup⟩ := h.names step (by simp)
      have hunlinked := h.unlinked place step ⟨rest, by simp⟩
      rw [FileTree.followSteps] at hfollow
      split at hfollow
      · rw [if_neg (by simp [hidle]), if_neg (by simp [hup])] at hfollow
        split at hfollow
        · simp at hfollow
        · split at hfollow
          · simp at hfollow
          · next target hat => exact absurd hat (hunlinked target)
          · simpa using ih (by simpa using h) hfollow
      · simp at hfollow

theorem IsCanonical.locate (h : tree.IsCanonical place) (hlocate : tree.locate place = .ok found) : found = place := by
  rw [FileTree.locate] at hlocate
  split at hlocate
  · simp at hlocate
  · have h : tree.IsCanonical ([] ++ place) := h
    exact h.followSteps hlocate

/-- What is reached at a canonical place is what stands there. -/
theorem IsCanonical.reach {what : FileTree} (h : tree.IsCanonical place) (hreach : tree.reach place = .ok what) :
    tree.at? place = some what := by
  rw [FileTree.reach] at hreach
  cases hlocate : tree.locate place with
  | error fault => simp [hlocate, bind, Except.bind] at hreach
  | ok found =>
      obtain rfl := h.locate hlocate
      simp only [hlocate, bind, Except.bind] at hreach
      split at hreach
      · next other hat =>
          obtain rfl := Except.ok.inj hreach
          exact hat
      · simp [throw, throwThe, MonadExceptOf.throw] at hreach

end XmlSchema.FileTree
