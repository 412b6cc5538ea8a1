import Mathlib.Logic.Relation
import XmlSchema.Proofs.FileTree.Search

/-!
Paths all of whose steps have to exist. Such a path leads to the same place as when nothing has to exist. The strict
search finds this place and no other, and so does a walk that is not given up. The search stops short only at a link
that leads back to itself.
-/

namespace XmlSchema.FileTree

/-- Steps lead from a place to another one, with something at each place on the way; every link is replaced by where it
leads. -/
inductive Finds (tree : FileTree) : Place → Steps → Place → Prop
  | here (place : Place) : Finds tree place [] place
  | idle {place found : Place} {step : Text} {rest : Steps} (hstep : isIdle step = true)
      (hrest : Finds tree place rest found) : Finds tree place (step :: rest) found
  | upward {place found : Place} {step : Text} {rest : Steps} (hidle : isIdle step = false)
      (hstep : isUpward step = true) (hrest : Finds tree place.dropLast rest found) :
      Finds tree place (step :: rest) found
  | name {place found : Place} {step : Text} {rest : Steps} {entry : FileTree} (hstep : IsName step)
      (hat : tree.at? (place ++ [step]) = some entry) (hentry : ∀ target, entry ≠ .link target)
      (hrest : Finds tree (place ++ [step]) rest found) : Finds tree place (step :: rest) found
  | link {place inner found : Place} {step : Text} {rest : Steps} {target : Text} (hstep : IsName step)
      (hat : tree.at? (place ++ [step]) = some (.link target))
      (htarget : Finds tree (start place target) (steps target) inner)
      (hrest : Finds tree inner rest found) : Finds tree place (step :: rest) found

/-- Steps, all of which exist up to a link, come to this link. -/
inductive ComesTo (tree : FileTree) : Place → Steps → Place → Prop
  | link {place : Place} {step : Text} {rest : Steps} {target : Text} (hstep : IsName step)
      (hat : tree.at? (place ++ [step]) = some (.link target)) : ComesTo tree place (step :: rest) (place ++ [step])
  | idle {place origin : Place} {step : Text} {rest : Steps} (hstep : isIdle step = true)
      (hrest : ComesTo tree place rest origin) : ComesTo tree place (step :: rest) origin
  | upward {place origin : Place} {step : Text} {rest : Steps} (hidle : isIdle step = false)
      (hstep : isUpward step = true) (hrest : ComesTo tree place.dropLast rest origin) :
      ComesTo tree place (step :: rest) origin
  | name {place origin : Place} {step : Text} {rest : Steps} {entry : FileTree} (hstep : IsName step)
      (hat : tree.at? (place ++ [step]) = some entry) (hentry : ∀ target, entry ≠ .link target)
      (hrest : ComesTo tree (place ++ [step]) rest origin) : ComesTo tree place (step :: rest) origin
  | past {place inner origin : Place} {step : Text} {rest : Steps} {target : Text} (hstep : IsName step)
      (hat : tree.at? (place ++ [step]) = some (.link target))
      (htarget : Finds tree (start place target) (steps target) inner)
      (hrest : ComesTo tree inner rest origin) : ComesTo tree place (step :: rest) origin

/-- The target of a link comes to another link, or to the same one. -/
def LeadsInto (tree : FileTree) (origin other : Place) : Prop :=
  ∃ target, tree.at? origin = some (.link target) ∧
    tree.ComesTo (start origin.dropLast target) (steps target) other

/-- No link leads back to itself, over other links or none. -/
def IsLoopFree (tree : FileTree) : Prop := ∀ origin, ¬Relation.TransGen tree.LeadsInto origin origin

/-- A link, told by the place without links on the way where it stands. -/
def IsLink (tree : FileTree) (origin : Place) : Prop :=
  ∃ above step target, tree.IsCanonical above ∧ IsName step ∧ origin = above ++ [step] ∧
    tree.at? origin = some (.link target)

variable {tree : FileTree} {place found origin : Place} {path : Steps} {n : Nat}

/-! ### Paths that exist -/

theorem Finds.leads (h : tree.Finds place path found) : tree.Leads place path found := by
  induction h with
  | here place => exact ⟨0, .here place⟩
  | idle hstep _ ih =>
      obtain ⟨n, hn⟩ := ih
      exact ⟨n, .idle hstep hn⟩
  | upward hidle hstep _ ih =>
      obtain ⟨n, hn⟩ := ih
      exact ⟨n, .upward hidle hstep hn⟩
  | name hstep hat hentry _ ih =>
      obtain ⟨n, hn⟩ := ih
      exact ⟨n, .name hstep (fun target htarget => hentry target (Option.some.inj (hat.symm.trans htarget))) hn⟩
  | link hstep hat _ _ ihtarget ihrest =>
      obtain ⟨m, hm⟩ := ihtarget
      obtain ⟨n, hn⟩ := ihrest
      exact ⟨_, .link hstep hat hm hn⟩

theorem Finds.unique {other : Place} (h : tree.Finds place path found) (h' : tree.Finds place path other) :
    found = other := h.leads.unique h'.leads

theorem Finds.isCanonical (h : tree.Finds place path found) (hplace : tree.IsCanonical place) :
    tree.IsCanonical found := by
  obtain ⟨n, hn⟩ := h.leads
  exact hn.isCanonical hplace

theorem Finds.append_iff {later : Steps} : tree.Finds place (path ++ later) found ↔
    ∃ middle, tree.Finds place path middle ∧ tree.Finds middle later found := by
  constructor
  · intro h
    induction path generalizing place with
    | nil => exact ⟨place, .here place, h⟩
    | cons step path ih =>
        cases h with
        | idle hstep hrest =>
            obtain ⟨middle, hm, hlater⟩ := ih hrest
            exact ⟨middle, .idle hstep hm, hlater⟩
        | upward hidle hstep hrest =>
            obtain ⟨middle, hm, hlater⟩ := ih hrest
            exact ⟨middle, .upward hidle hstep hm, hlater⟩
        | name hstep hat hentry hrest =>
            obtain ⟨middle, hm, hlater⟩ := ih hrest
            exact ⟨middle, .name hstep hat hentry hm, hlater⟩
        | link hstep hat htarget hrest =>
            obtain ⟨middle, hm, hlater⟩ := ih hrest
            exact ⟨middle, .link hstep hat htarget hm, hlater⟩
  · rintro ⟨middle, h, hlater⟩
    induction h with
    | here => exact hlater
    | idle hstep _ ih => exact .idle hstep (ih hlater)
    | upward hidle hstep _ ih => exact .upward hidle hstep (ih hlater)
    | name hstep hat hentry _ ih => exact .name hstep hat hentry (ih hlater)
    | link hstep hat htarget _ _ ih => exact .link hstep hat htarget (ih hlater)

/-! ### What the strict search finds -/

theorem finds_of_resolveSteps {enter : Place → Place → Steps → Resolution}
    (henter : ∀ origin place path found, enter origin place path = .place found → tree.Finds place path found)
    (h : resolveSteps tree true enter place path = .place found) : tree.Finds place path found := by
  induction path generalizing place with
  | nil =>
      obtain rfl := Resolution.place.inj h
      exact .here place
  | cons step path ih =>
      rw [resolveSteps] at h
      split at h
      · next hidle => exact .idle hidle (ih h)
      · next hidle =>
          split at h
          · next hup => exact .upward (by simpa using hidle) hup (ih h)
          · next hup =>
              have hstep : IsName step := ⟨by simpa using hidle, by simpa using hup⟩
              split at h
              · next target hat =>
                  split at h
                  · next inner hinner => exact .link hstep hat (henter _ _ _ _ hinner) (ih h)
                  · simp at h
                  · simp at h
              · next entry hother hat =>
                  exact .name hstep hat (fun target htarget => hother target htarget) (ih h)
              · simp at h

theorem finds_of_resolveWithin {depth : Nat} {active : List Place}
    (h : resolveWithin tree true depth active place path = .place found) : tree.Finds place path found := by
  induction depth generalizing active place path found with
  | zero => exact finds_of_resolveSteps (fun _ _ _ _ henter => by simp at henter) h
  | succ depth ih =>
      refine finds_of_resolveSteps (fun origin place path found henter => ?_) h
      split at henter
      · simp at henter
      · exact ih henter

/-- The strict search gives up early, or goes on as the other one. -/
theorem resolveSteps_strict {enter enter' : Place → Place → Steps → Resolution}
    (henter : ∀ origin place path, enter origin place path = .absent ∨
      enter origin place path = enter' origin place path) :
    resolveSteps tree true enter place path = .absent ∨
      resolveSteps tree true enter place path = resolveSteps tree false enter' place path := by
  induction path generalizing place with
  | nil => exact .inr rfl
  | cons step path ih =>
      rw [resolveSteps, resolveSteps]
      split
      · exact ih
      · split
        · exact ih
        · split
          · next target hat =>
              rcases henter (place ++ [step]) (start place target) (steps target) with habsent | hsame
              · exact .inl (by rw [habsent])
              · rw [hsame]
                split
                · exact ih
                · exact .inr rfl
                · exact .inr rfl
          · exact ih
          · exact .inl rfl

theorem resolveWithin_strict {depth : Nat} {active : List Place} :
    resolveWithin tree true depth active place path = .absent ∨
      resolveWithin tree true depth active place path = resolveWithin tree false depth active place path := by
  induction depth generalizing active place path with
  | zero => exact resolveSteps_strict fun _ _ _ => .inr rfl
  | succ depth ih =>
      refine resolveSteps_strict fun origin place path => ?_
      split
      · exact .inr rfl
      · exact ih

/-- What the strict search does not find is nowhere. -/
theorem not_finds_of_resolveSteps {enter : Place → Place → Steps → Resolution}
    (hfound : ∀ origin place path found, enter origin place path = .place found → tree.Finds place path found)
    (habsent : ∀ origin place path found, enter origin place path = .absent → ¬tree.Finds place path found)
    (h : resolveSteps tree true enter place path = .absent) : ¬tree.Finds place path found := by
  intro hfinds
  induction hfinds with
  | here => simp [resolveSteps] at h
  | idle hstep _ ih =>
      rw [resolveSteps, if_pos hstep] at h
      exact ih h
  | upward hidle hstep _ ih =>
      rw [resolveSteps, if_neg (by simp [hidle]), if_pos hstep] at h
      exact ih h
  | name hstep hat hentry _ ih =>
      rw [resolveSteps, if_neg (by simp [hstep.1]), if_neg (by simp [hstep.2])] at h
      split at h
      · next target hlink => exact hentry target (Option.some.inj (hat.symm.trans hlink))
      · exact ih h
      · next hnone => simp [hat] at hnone
  | @link place inner _ step _ target hstep hat htarget _ _ ih =>
      rw [resolveSteps, if_neg (by simp [hstep.1]), if_neg (by simp [hstep.2])] at h
      simp only [hat] at h
      split at h
      · next other hother =>
          obtain rfl := (hfound _ _ _ _ hother).unique htarget
          exact ih h
      · simp at h
      · next hother => exact habsent _ _ _ _ hother htarget

theorem not_finds_of_resolveWithin {depth : Nat} {active : List Place}
    (h : resolveWithin tree true depth active place path = .absent) : ¬tree.Finds place path found := by
  induction depth generalizing active place path found with
  | zero => exact not_finds_of_resolveSteps (by simp) (by simp) h
  | succ depth ih =>
      refine not_finds_of_resolveSteps (fun origin place path found henter => ?_)
        (fun origin place path found henter => ?_) h
      · split at henter
        · simp at henter
        · exact finds_of_resolveWithin henter
      · split at henter
        · simp at henter
        · exact ih henter

/-- The strict search finds where a path leads, and nothing where it leads nowhere. -/
theorem strict_resolution_iff : tree.resolution true path = .place found ↔ tree.Finds [] path found := by
  constructor
  · exact finds_of_resolveWithin
  · intro h
    have hlenient : tree.resolution false path = .place found := resolution_eq_place_iff.2 h.leads
    have hstrict : tree.resolution true path = .absent ∨ tree.resolution true path = tree.resolution false path :=
      resolveWithin_strict
    rcases hstrict with habsent | hsame
    · exact absurd h (not_finds_of_resolveWithin habsent)
    · exact hsame.trans hlenient

/-! ### What a walk reaches -/

theorem finds_of_followSteps {enter : Place → Steps → Except Fault Place}
    (henter : ∀ place path found, enter place path = .ok found → tree.Finds place path found)
    (h : followSteps tree enter place path = .ok found) : tree.Finds place path found := by
  induction path generalizing place with
  | nil =>
      obtain rfl := Except.ok.inj h
      exact .here place
  | cons step path ih =>
      rw [followSteps] at h
      split at h
      · split at h
        · next hidle => exact .idle hidle (ih h)
        · next hidle =>
            split at h
            · next hup => exact .upward (by simpa using hidle) hup (ih h)
            · next hup =>
                have hstep : IsName step := ⟨by simpa using hidle, by simpa using hup⟩
                split at h
                · simp at h
                · split at h
                  · simp at h
                  · next target hat =>
                      obtain ⟨inner, htarget, hrest⟩ := Finds.append_iff.1 (henter _ _ _ h)
                      exact .link hstep hat htarget hrest
                  · next entry hother hat =>
                      exact .name hstep hat (fun target htarget => hother target htarget) (ih h)
      · simp at h

theorem finds_of_follow {links : Nat} (h : tree.follow links place path = .ok found) : tree.Finds place path found := by
  induction links generalizing place path found with
  | zero => exact finds_of_followSteps (by simp) h
  | succ links ih => exact finds_of_followSteps (fun _ _ _ henter => ih henter) h

theorem finds_of_locate (h : tree.locate path = .ok found) : tree.Finds [] path found := by
  rw [FileTree.locate] at h
  split at h
  · simp at h
  · exact finds_of_follow h

/-- What is reached stands where the path leads. -/
theorem finds_of_reach {what : FileTree} (h : tree.reach path = .ok what) :
    ∃ place, tree.Finds [] path place ∧ tree.at? place = some what := by
  rw [FileTree.reach] at h
  cases hlocate : tree.locate path with
  | error fault => simp [hlocate, bind, Except.bind] at h
  | ok place =>
      simp only [hlocate, bind, Except.bind] at h
      split at h
      · next other hat =>
          obtain rfl := Except.ok.inj h
          exact ⟨place, finds_of_locate hlocate, hat⟩
      · simp [throw, throwThe, MonadExceptOf.throw] at h

/-! ### Links that lead back to themselves -/

/-- Steps that lead over so many links come to none whose target leads over as many. -/
theorem ComesTo.leadsOver (h : tree.ComesTo place path origin) (hpath : tree.LeadsOver n place path found) :
    ∃ m < n, ∃ inner, tree.LinkLeadsOver m origin inner := by
  induction h generalizing n found with
  | link hstep hat =>
      cases hpath with
      | idle hidle => simp [hstep.1] at hidle
      | upward _ hup => simp [hstep.2] at hup
      | name _ hat' => exact absurd hat (hat' _)
      | @link m _ _ inner _ _ _ target _ hat' htarget =>
          exact ⟨m, by omega, inner, target, hat', by simpa using htarget⟩
  | idle hstep _ ih =>
      cases hpath with
      | idle _ hrest => exact ih hrest
      | upward hidle => simp [hstep] at hidle
      | name hname | link hname => simp [IsName, hstep] at hname
  | upward hidle hstep _ ih =>
      cases hpath with
      | idle hidle' => simp [hidle] at hidle'
      | upward _ _ hrest => exact ih hrest
      | name hname | link hname => simp [IsName, hstep] at hname
  | name hstep hat hentry _ ih =>
      cases hpath with
      | idle hidle => simp [hstep.1] at hidle
      | upward _ hup => simp [hstep.2] at hup
      | name _ _ hrest => exact ih hrest
      | link _ hat' => exact absurd (Option.some.inj (hat.symm.trans hat')) (hentry _)
  | past hstep hat htarget _ ih =>
      cases hpath with
      | idle hidle => simp [hstep.1] at hidle
      | upward _ hup => simp [hstep.2] at hup
      | name _ hat' => exact absurd hat (hat' _)
      | link _ hat' htarget' hrest =>
          obtain rfl := FileTree.link.inj (Option.some.inj (hat.symm.trans hat'))
          obtain rfl := htarget.leads.unique ⟨_, htarget'⟩
          obtain ⟨m, hm, hlink⟩ := ih hrest
          exact ⟨m, by omega, hlink⟩

theorem LeadsInto.leadsOver {other : Place} (h : tree.LeadsInto origin other) (hn : tree.LinkLeadsOver n origin found) :
    ∃ m < n, ∃ inner, tree.LinkLeadsOver m other inner := by
  obtain ⟨target, hat, hcomes⟩ := h
  obtain ⟨target', hat', hleads⟩ := hn
  obtain rfl := FileTree.link.inj (Option.some.inj (hat.symm.trans hat'))
  exact hcomes.leadsOver hleads

/-- A link that leads somewhere does not lead back to itself. -/
theorem LinkLeadsOver.not_loop (hn : tree.LinkLeadsOver n origin found) :
    ¬Relation.TransGen tree.LeadsInto origin origin := by
  have hless {other : Place} (h : Relation.TransGen tree.LeadsInto origin other) :
      ∃ m < n, ∃ inner, tree.LinkLeadsOver m other inner := by
    induction h with
    | single h => exact h.leadsOver hn
    | tail _ h ih =>
        obtain ⟨m, hm, inner, hlink⟩ := ih
        obtain ⟨k, hk, hother⟩ := h.leadsOver hlink
        exact ⟨k, by omega, hother⟩
  intro h
  obtain ⟨m, hm, inner, target, hat, hleads⟩ := hless h
  obtain ⟨target', hat', hleads'⟩ := hn
  obtain rfl := FileTree.link.inj (Option.some.inj (hat.symm.trans hat'))
  obtain ⟨rfl, _⟩ := hleads.unique hleads'
  omega

theorem ComesTo.exists_step (h : tree.ComesTo place path origin) : ∃ above step, origin = above ++ [step] := by
  induction h with
  | @link place step => exact ⟨place, step, rfl⟩
  | idle _ _ ih | upward _ _ _ ih | name _ _ _ _ ih | past _ _ _ _ ih => exact ih

theorem ComesTo.isLink (h : tree.ComesTo place path origin) (hplace : tree.IsCanonical place) : tree.IsLink origin := by
  induction h with
  | @link place step _ target hstep hat => exact ⟨place, step, target, hplace, hstep, rfl, hat⟩
  | idle _ _ ih => exact ih hplace
  | upward _ _ _ ih => exact ih (hplace.of_prefix (List.dropLast_prefix _))
  | name hstep hat hentry _ ih =>
      exact ih (hplace.append hstep fun target htarget =>
        hentry target (Option.some.inj (hat.symm.trans htarget)))
  | past _ _ htarget _ ih => exact ih (htarget.isCanonical (hplace.start _))

theorem IsLink.linkLeadsOver (h : tree.IsLink origin) (horigin : tree.Leads [] origin found) :
    ∃ m, tree.LinkLeadsOver m origin found := by
  obtain ⟨above, step, target, habove, hstep, rfl, hat⟩ := h
  obtain ⟨middle, hmiddle, _, hlast⟩ := Leads.append_iff.1 horigin
  obtain rfl := hmiddle.unique habove.leads
  cases hlast with
  | idle hidle => simp [hstep.1] at hidle
  | upward _ hup => simp [hstep.2] at hup
  | name _ hat' => exact absurd hat (hat' _)
  | @link m _ _ _ _ _ _ target' _ hat' htarget hrest =>
      cases hrest with
      | here => exact ⟨m, target', hat', by simpa using htarget⟩

/-- A search that is broken off inside a link was taken to this link. -/
theorem comesTo_of_resolveSteps {enter : Place → Place → Steps → Resolution} {rest : Steps}
    (henter : ∀ origin place path found, enter origin place path = .place found → tree.Finds place path found)
    (h : resolveSteps tree true enter place path = .looping origin rest) :
    ∃ entered target inner, tree.ComesTo place path entered ∧ tree.at? entered = some (.link target) ∧
      enter entered (start entered.dropLast target) (steps target) = .looping origin inner := by
  induction path generalizing place rest with
  | nil => simp [resolveSteps] at h
  | cons step path ih =>
      rw [resolveSteps] at h
      split at h
      · next hidle =>
          obtain ⟨entered, target, inner, hcomes, hentered⟩ := ih h
          exact ⟨entered, target, inner, .idle hidle hcomes, hentered⟩
      · next hidle =>
          split at h
          · next hup =>
              obtain ⟨entered, target, inner, hcomes, hentered⟩ := ih h
              exact ⟨entered, target, inner, .upward (by simpa using hidle) hup hcomes, hentered⟩
          · next hup =>
              have hstep : IsName step := ⟨by simpa using hidle, by simpa using hup⟩
              split at h
              · next target hat =>
                  split at h
                  · next middle hmiddle =>
                      obtain ⟨entered, target, inner, hcomes, hentered⟩ := ih h
                      exact ⟨entered, target, inner, .past hstep hat (henter _ _ _ _ hmiddle) hcomes, hentered⟩
                  · next looped inner hlooping =>
                      obtain ⟨rfl, _⟩ := Resolution.looping.inj h
                      exact ⟨place ++ [step], target, inner, .link hstep hat, hat, by simpa using hlooping⟩
                  · simp at h
              · next entry hother hat =>
                  obtain ⟨entered, target, inner, hcomes, hentered⟩ := ih h
                  exact ⟨entered, target, inner,
                    .name hstep hat (fun target htarget => hother target htarget) hcomes, hentered⟩
              · simp at h

/-- The search is broken off only at a link that leads back to itself: a link that is met inside its own target is one,
and there are not enough links for any other reason. -/
theorem loop_of_resolveWithin {depth : Nat} {active : List Place} {rest : Steps} (hplace : tree.IsCanonical place)
    (hactive : active.Nodup) (hlinks : active ⊆ tree.linkPlaces) (hdepth : tree.linkCount ≤ depth + active.length)
    (hinto : ∀ outer ∈ active, ∀ entered, tree.ComesTo place path entered →
      Relation.TransGen tree.LeadsInto outer entered)
    (h : resolveWithin tree true depth active place path = .looping origin rest) :
    tree.IsLink origin ∧ Relation.TransGen tree.LeadsInto origin origin := by
  induction depth generalizing active place path rest with
  | zero =>
      obtain ⟨entered, target, inner, hcomes, hat, hentered⟩ := comesTo_of_resolveSteps (by simp) h
      obtain ⟨rfl, _⟩ := Resolution.looping.inj hentered
      by_cases hmem : entered ∈ active
      · exact ⟨hcomes.isLink hplace, hinto entered hmem entered hcomes⟩
      · have hmore : (entered :: active).length ≤ tree.linkPlaces.length :=
          ((List.nodup_cons.2 ⟨hmem, hactive⟩).subperm
            (List.cons_subset.2 ⟨mem_linkPlaces hat, hlinks⟩)).length_le
        rw [length_linkPlaces, List.length_cons] at hmore
        omega
  | succ depth ih =>
      obtain ⟨entered, target, inner, hcomes, hat, hentered⟩ := comesTo_of_resolveSteps
        (fun origin place path found henter => by
          split at henter
          · simp at henter
          · exact finds_of_resolveWithin henter) h
      split at hentered
      · next hmem =>
          obtain ⟨rfl, _⟩ := Resolution.looping.inj hentered
          exact ⟨hcomes.isLink hplace, hinto entered (by simpa using hmem) entered hcomes⟩
      · next hmem =>
          obtain ⟨above, step, _, habove, _, rfl, _⟩ := hcomes.isLink hplace
          rw [List.dropLast_concat] at hentered
          refine ih (habove.start target) (List.nodup_cons.2 ⟨by simpa using hmem, hactive⟩)
            (List.cons_subset.2 ⟨mem_linkPlaces hat, hlinks⟩) (by rw [List.length_cons]; omega)
            (fun outer houter next hnext => ?_) hentered
          have hinner : tree.LeadsInto (above ++ [step]) next := ⟨target, hat, by simpa using hnext⟩
          rcases List.mem_cons.1 houter with rfl | houter
          · exact .single hinner
          · exact .tail (hinto outer houter _ hcomes) hinner

theorem loop_of_resolution {rest : Steps} (h : tree.resolution true path = .looping origin rest) :
    tree.IsLink origin ∧ Relation.TransGen tree.LeadsInto origin origin :=
  loop_of_resolveWithin .nil .nil (by simp) (by simp) (by simp) h

/-! ### Canonical places of what exists -/

theorem canonicalExisting_eq_ok_iff : tree.canonicalExisting path = .ok found ↔ tree.Finds [] path found := by
  rw [← strict_resolution_iff, canonicalExisting]
  cases hresolution : tree.resolution true path with
  | place place => simp
  | absent => simp
  | looping origin rest =>
      obtain ⟨hlink, hloop⟩ := loop_of_resolution hresolution
      simp only [reduceCtorEq, iff_false]
      intro hlocate
      -- What can be opened does not lead back to itself.
      obtain ⟨n, hn⟩ := hlink.linkLeadsOver (finds_of_locate hlocate).leads
      exact hn.not_loop hloop

theorem IsLoopFree.canonicalExisting (h : tree.IsLoopFree) (path : Steps) :
    tree.canonicalExisting path ≠ .error .tooManyLinks := by
  rw [FileTree.canonicalExisting]
  cases hresolution : tree.resolution true path with
  | place place => simp
  | absent => simp
  | looping origin rest => exact absurd (loop_of_resolution hresolution).2 (h origin)

end XmlSchema.FileTree
