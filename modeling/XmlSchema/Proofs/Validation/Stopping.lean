import XmlSchema.Proofs.Validation.Visits
import XmlSchema.Service

/-!
A run that may pass only so many checkpoints does what a run does that nothing stops, until it has passed more than it
may. So it comes to the same end, or it is stopped and tells nothing; and a caller gets the whole verdict or an error,
whenever it cancels and whatever its clock shows.
-/

namespace XmlSchema

namespace Validation

variable {s : Settings} {d : ElementDeclaration} {path : Text} {depth : Nat} {e : Xml.Element} {r : Report}

/-! ### Where checkpoints are passed -/

namespace Report

@[simp] theorem checkpoints_breakIf (happens : Bool) (cause : Breakdown) :
    (r.breakIf happens cause).checkpoints = r.checkpoints := by
  cases happens <;> rfl

@[simp] theorem checkpoints_addFindings (findings : List Finding) :
    (r.addFindings findings).checkpoints = r.checkpoints := checkpoints_breakIf _ _

@[simp] theorem checkpoints_add (line : Nat) (violations : List Violation) :
    (r.add line path violations).checkpoints = r.checkpoints := checkpoints_addFindings _

@[simp] theorem checkpoints_addAttributes (line : Nat) (violations : List AttributeViolation) :
    (r.addAttributes line path violations).checkpoints = r.checkpoints := checkpoints_addFindings _

@[simp] theorem checkpoints_inspect (names : List Name) : (r.inspect names).checkpoints = r.checkpoints :=
  checkpoints_breakIf _ _

@[simp] theorem checkpoints_pass (n : Nat) : (r.pass n).checkpoints = r.checkpoints + n := rfl

theorem checkpoints_foldl {α : Type} {f : Report → α → Report} (hf : ∀ r a, (f r a).checkpoints = r.checkpoints)
    (l : List α) : (l.foldl f r).checkpoints = r.checkpoints := by
  induction l generalizing r with
  | nil => rfl
  | cons a l ih => rw [List.foldl_cons, ih, hf]

end Report

@[simp] theorem checkpoints_checkKind : (checkKind s d e path r).checkpoints = r.checkpoints := by
  simp only [checkKind, Report.checkpoints_add]
  split
  · split <;> split <;> simp
  · split <;> simp

@[simp] theorem checkpoints_checkNil (type : TypeDefinition) :
    (checkNil s d type e path r).checkpoints = r.checkpoints := by
  unfold checkNil
  cases type <;> simp only [Report.checkpoints_addAttributes, Report.checkpoints_inspect] <;> split <;> split <;> simp

@[simp] theorem checkpoints_checkSimpleContent (t : SimpleType) :
    (checkSimpleContent d t e path r).checkpoints = r.checkpoints := by
  unfold checkSimpleContent
  split <;> simp

@[simp] theorem checkpoints_checkSimple (t : SimpleType) : (checkSimple d t e path r).checkpoints = r.checkpoints := by
  simp [checkSimple]

/-! ### A run beside one that nothing stops -/

/-- The same rules for a run that may pass so many checkpoints. -/
def Settings.allowing (s : Settings) (allowance : Option Nat) : Settings := { s with allowance }

/-- What a run has come to that may pass `allowed` checkpoints, beside one that nothing stops: both have done the same
within the allowance, or the one is stopped and the other has passed more checkpoints too. -/
inductive Tracks (allowed : Nat) (limited free : Report) : Prop
  | together (h : limited = free) (hle : free.checkpoints ≤ allowed)
  | stopped (hb : limited.breakdown? = none) (hlimited : allowed < limited.checkpoints)
      (hfree : allowed < free.checkpoints)

/-- A check of a run that may pass `allowed` checkpoints, beside that of a run that nothing stops. Neither takes back a
checkpoint. -/
structure Follows (allowed : Nat) (check check' : Report → Report) : Prop where
  tracks : ∀ r, r.breakdown? = none → r.checkpoints ≤ allowed → Tracks allowed (check r) (check' r)
  le : ∀ r, r.checkpoints ≤ (check' r).checkpoints

section

variable {allowed : Nat}

/-- The next step of both runs, unless it is not taken because the run is stopped. -/
theorem Tracks.unlessStopped {limited free : Report} {next next' : Report → Report} (h : Tracks allowed limited free)
    (hnext : Follows allowed next next') :
    Tracks allowed (if (s.allowing (some allowed)).stops limited = true then limited else next limited)
      (if (s.allowing none).stops free = true then free else next' free) := by
  cases h with
  | together h hwithin =>
      obtain rfl := h
      have hnot : ¬ allowed < limited.checkpoints := Nat.not_lt.2 hwithin
      cases hb : limited.breakdown? with
      | none => simpa [Settings.allowing, Settings.stops, hb, hnot] using hnext.tracks limited hb hwithin
      | some cause => simpa [Settings.allowing, Settings.stops, hb] using .together rfl hwithin
  | stopped hb hlimited hfree =>
      have hstops : (s.allowing (some allowed)).stops limited = true := by
        simp [Settings.allowing, Settings.stops, hlimited]
      rw [if_pos hstops]
      -- the run beside it may still go on, but takes back no checkpoint
      refine .stopped hb hlimited ?_
      split
      · exact hfree
      · exact Nat.lt_of_lt_of_le hfree (hnext.le free)

namespace Follows

variable {check check' later later' : Report → Report}

/-- What passes no checkpoint is the same in both runs. -/
theorem same (h : ∀ r, (check r).checkpoints = r.checkpoints) : Follows allowed check check where
  tracks r _ hle := .together rfl (by rw [h]; exact hle)
  le r := Nat.le_of_eq (h r).symm

theorem pass (n : Nat) : Follows allowed (fun r => r.pass n) fun r => r.pass n where
  tracks r hb _ := by
    rcases Nat.lt_or_ge allowed (r.pass n).checkpoints with h | h
    · exact .stopped hb h h
    · exact .together rfl h
  le r := Nat.le_add_right _ _

theorem breakIf (happens : Bool) (cause : Breakdown) :
    Follows allowed (fun r => r.breakIf happens cause) fun r => r.breakIf happens cause := same fun _ => by simp

theorem add (line : Nat) (path : Text) (violations : List Violation) :
    Follows allowed (fun r => r.add line path violations) fun r => r.add line path violations := same fun _ => by simp

theorem foldl {α : Type} {f : Report → α → Report} (hf : ∀ r a, (f r a).checkpoints = r.checkpoints) {l : List α} :
    Follows allowed (fun r => l.foldl f r) fun r => l.foldl f r := same fun _ => Report.checkpoints_foldl hf l

theorem ite {c : Prop} [Decidable c] (h : Follows allowed check check') (h' : Follows allowed later later') :
    Follows allowed (fun r => if c then check r else later r) fun r => if c then check' r else later' r := by
  by_cases hc : c <;> simpa only [hc, if_true, if_false]

theorem unlessStopped (h : Follows allowed check check') (h' : Follows allowed later later') :
    Follows allowed
      (fun r => if (s.allowing (some allowed)).stops (check r) = true then check r else later (check r))
      fun r => if (s.allowing none).stops (check' r) = true then check' r else later' (check' r) where
  tracks r hb hle := (h.tracks r hb hle).unlessStopped h'
  le r := by
    split
    · exact h.le r
    · exact Nat.le_trans (h.le r) (h'.le _)

end Follows

theorem follows_checkContent (element : Text) (model : Option Particle) (tag : Xml.Tag) (path : Text) (depth : Nat)
    (children : List Xml.Element) (paths : List Text) :
    Follows allowed (checkContent (s.allowing (some allowed)) element model tag path depth children paths)
      (checkContent (s.allowing none) element model tag path depth children paths) := by
  unfold checkContent
  refine (Follows.pass _).unlessStopped ((Follows.breakIf _ _).ite (Follows.foldl fun r m => ?_))
  split <;> simp

theorem follows_checkComplex {first : Report → Report} (hfirst : ∀ r, (first r).checkpoints = r.checkpoints)
    (t : ComplexType) :
    Follows allowed (fun r => checkComplex (s.allowing (some allowed)) d t e path depth (first r))
      fun r => checkComplex (s.allowing none) d t e path depth (first r) := by
  unfold checkComplex
  cases t.content with
  | simple simple => exact .same fun r => by simp [hfirst]
  | empty | elementOnly | mixed =>
      exact (Follows.same fun r => by simp [hfirst]).unlessStopped (follows_checkContent _ _ _ _ _ _ _)

theorem follows_checkType (type : TypeDefinition) : Follows allowed
    (fun r => match type with
      | .simple t => checkSimple d t e path (checkKind s d e path r)
      | .complex t => checkComplex (s.allowing (some allowed)) d t e path depth (checkKind s d e path r))
    fun r => match type with
      | .simple t => checkSimple d t e path (checkKind s d e path r)
      | .complex t => checkComplex (s.allowing none) d t e path depth (checkKind s d e path r) := by
  cases type with
  | simple t => exact .same fun r => (checkpoints_checkSimple t).trans checkpoints_checkKind
  | complex t => exact follows_checkComplex (fun _ => checkpoints_checkKind) t

theorem follows_checkItself :
    Follows allowed (checkItself (s.allowing (some allowed)) d path depth e)
      (checkItself (s.allowing none) d path depth e) := by
  have hnil (type : TypeDefinition) : Follows allowed (fun r => checkNil s d type e path (checkKind s d e path r))
      fun r => checkNil s d type e path (checkKind s d e path r) :=
    .same fun r => (checkpoints_checkNil type).trans checkpoints_checkKind
  exact (Follows.pass 1).unlessStopped ((Follows.add _ _ _).ite ((hnil _).ite (follows_checkType _)))

theorem follows_perform (step : Step) :
    Follows allowed (fun r => step.perform (s.allowing (some allowed)) r)
      fun r => step.perform (s.allowing none) r := by
  cases step with
  | visit v => exact follows_checkItself
  | undeclared e path => exact .same fun r => Report.checkpoints_add _ _

/-- Steps that both runs take. -/
theorem Follows.foldl_take {check check' : Report → Report} (h : Follows allowed check check') (l : List Step) :
    Follows allowed (fun r => l.foldl (Step.take (s.allowing (some allowed))) (check r))
      fun r => l.foldl (Step.take (s.allowing none)) (check' r) := by
  induction l generalizing check check' with
  | nil => exact h
  | cons step l ih => exact ih (h.unlessStopped (follows_perform step))

end

/-! ### Both runs take the same steps -/

theorem stepsAmong_allowing {allowance : Option Nat} {nodes : List Xml.Node}
    (ih : ∀ node ∈ nodes, ∀ d path depth,
      stepsAt (s.allowing allowance) d path depth node = stepsAt s d path depth node)
    (leaves : List Particle) (depth : Nat) (paths : List Text) :
    stepsAmong (s.allowing allowance) leaves depth paths nodes = stepsAmong s leaves depth paths nodes := by
  rw [stepsAmong_eq_flatMap, stepsAmong_eq_flatMap, List.flatMap, List.flatMap]
  congr 1
  refine List.map_congr_left ?_
  rintro ⟨e, path⟩ hmem
  have hnode := toNode_mem_of_mem_filterMap (List.of_mem_zip hmem).1
  change stepsOfChild (s.allowing allowance) leaves depth e path = stepsOfChild s leaves depth e path
  have hschema : (s.allowing allowance).schema = s.schema := rfl
  rw [stepsOfChild, stepsOfChild, hschema]
  cases treatment s.schema leaves e.name with
  | check d => exact ih _ hnode d path depth
  | undeclared | ignore => rfl

theorem stepsAt_allowing (allowance : Option Nat) (node : Xml.Node) : ∀ d path depth,
    stepsAt (s.allowing allowance) d path depth node = stepsAt s d path depth node := by
  induction node using Xml.Node.induct with
  | leaf node h =>
      intro d path depth
      cases node with
      | element => simp [Xml.Node.toElement?] at h
      | _ => simp [stepsAt]
  | element tag content ih =>
      intro d path depth
      have hmodel : Visit.model? (s.allowing allowance) = Visit.model? s := rfl
      rw [stepsAt, stepsAt, hmodel]
      cases Visit.model? s ⟨⟨tag, content⟩, d, path, depth⟩ with
      | none => rfl
      | some model => exact congrArg _ (stepsAmong_allowing ih _ _ _)

theorem steps_allowing (allowance : Option Nat) (root : Xml.Element) :
    steps (s.allowing allowance) root = steps s root := by
  have hschema : (s.allowing allowance).schema = s.schema := rfl
  rw [steps, steps, hschema]
  cases s.schema.element? root.name with
  | none => rfl
  | some d => exact stepsAt_allowing allowance _ _ _ _

theorem follows_checkDocument (allowed : Nat) (root : Xml.Element) :
    Follows allowed (checkDocument (s.allowing (some allowed)) root) (checkDocument (s.allowing none) root) := by
  have hinspect : Follows allowed (fun r => r.inspect [root.name]) fun r => r.inspect [root.name] :=
    .same fun r => Report.checkpoints_inspect _
  cases hd : s.schema.element? root.name with
  | none =>
      have hroot (allowance : Option Nat) : (s.allowing allowance).schema.element? root.name = none := hd
      unfold checkDocument
      simp only [hroot]
      exact hinspect.unlessStopped (.add _ _ _)
  | some d =>
      have hroot (allowance : Option Nat) : ((s.allowing allowance).schema.element? root.name).isSome = true :=
        Option.isSome_iff_exists.2 ⟨d, hd⟩
      have hfold (allowance : Option Nat) : checkDocument (s.allowing allowance) root =
          fun r => (steps s root).foldl (Step.take (s.allowing allowance)) (r.inspect [root.name]) := by
        funext r
        rw [checkDocument_eq_foldl _ _ _ (hroot allowance), steps_allowing]
      rw [hfold, hfold]
      exact hinspect.foldl_take _

/-! ### Whole runs -/

theorem outcome_allowing_none_ne_stopped : (s.allowing none).outcome r ≠ .error .stopped := by
  rw [Settings.outcome]
  cases hb : r.breakdown? with
  | none => simp [Settings.allowing, Settings.stops, hb]
  | some cause => simp

theorem Tracks.outcome {allowed : Nat} {limited free : Report} (h : Tracks allowed limited free) :
    (s.allowing (some allowed)).outcome limited =
      if allowed < free.checkpoints then .error .stopped else (s.allowing none).outcome free := by
  cases h with
  | together h hle =>
      obtain rfl := h
      rw [if_neg (Nat.not_lt.2 hle), Settings.outcome, Settings.outcome]
      cases hb : limited.breakdown? with
      | none => simp [Settings.allowing, Settings.stops, hb, hle]
      | some cause => rfl
  | stopped hb hlimited hfree =>
      rw [if_pos hfree, Settings.outcome]
      simp [Settings.allowing, Settings.stops, hb, hlimited]

namespace Engine

variable {e : Engine} {document schema : Text}

theorem readTexts_ne_stopped : e.readTexts document schema ≠ .error .stopped := by
  intro h
  rw [readTexts] at h
  split at h
  · exact nomatch h
  split at h
  · exact nomatch h
  cases hd : Xml.load e.limits document with
  | error cause =>
      rw [hd] at h
      cases h
  | ok root =>
      cases hs : Xml.load e.limits schema with
      | error cause =>
          rw [hd, hs] at h
          cases h
      | ok schemaRoot =>
          rw [hd, hs] at h
          cases h

/-- A run behind two texts that can be read. -/
theorem run_of_readTexts {root schemaRoot : Xml.Element} (ht : e.readTexts document schema = .ok (root, schemaRoot))
    {compiled : Schema} (hs : Schema.ofElement schemaRoot = .ok compiled) (allowance : Option Nat) :
    e.run allowance document schema =
      let settings : Settings := ⟨compiled, e.maxDepth, allowance⟩
      let report := checkDocument settings root { checkpoints := 2 }
      if allowance.any (· < 1) then ⟨.error .stopped, 1⟩
      else if allowance.any (· < 2) then ⟨.error .stopped, 2⟩
      else ⟨settings.outcome report, report.checkpoints⟩ := by
  simp only [run, ht, hs]

theorem run_of_schemaError {root schemaRoot : Xml.Element} (ht : e.readTexts document schema = .ok (root, schemaRoot))
    {cause : SchemaError} (hs : Schema.ofElement schemaRoot = .error cause) (allowance : Option Nat) :
    e.run allowance document schema =
      if allowance.any (· < 1) then ⟨.error .stopped, 1⟩ else ⟨.error (.schema cause), 1⟩ := by
  simp only [run, ht, hs]

theorem validate_ne_stopped : e.validate document schema ≠ .error .stopped := by
  rw [validate]
  cases ht : e.readTexts document schema with
  | error refusal =>
      simp only [run, ht, ne_eq, Except.error.injEq]
      rintro rfl
      exact readTexts_ne_stopped ht
  | ok texts =>
      cases hs : Schema.ofElement texts.2 with
      | error cause => simp [run_of_schemaError ht hs]
      | ok compiled =>
          rw [run_of_readTexts ht hs]
          exact outcome_allowing_none_ne_stopped (s := ⟨compiled, e.maxDepth, none⟩)

/-- A run is stopped exactly if it would pass more checkpoints than it may; else it comes to the same end as without a
bound. -/
theorem outcome_run (allowed : Nat) : (e.run (some allowed) document schema).outcome =
    if allowed < (e.run none document schema).checkpoints then .error .stopped else e.validate document schema := by
  rw [validate]
  cases ht : e.readTexts document schema with
  | error refusal => simp [run, ht]
  | ok texts =>
      cases hs : Schema.ofElement texts.2 with
      | error cause =>
          simp only [run_of_schemaError ht hs, Option.any_some, Option.any_none, decide_eq_true_eq]
          split <;> simp [*]
      | ok compiled =>
          have hfollows := follows_checkDocument (s := ⟨compiled, e.maxDepth, none⟩) allowed texts.1
          have hle : 2 ≤ (checkDocument ⟨compiled, e.maxDepth, none⟩ texts.1 { checkpoints := 2 }).checkpoints :=
            hfollows.le { checkpoints := 2 }
          simp only [run_of_readTexts ht hs, Option.any_some, Option.any_none, decide_eq_true_eq, Bool.false_eq_true,
            if_false]
          rcases Nat.lt_or_ge allowed 2 with hlt | hge
          · rw [if_pos (Nat.lt_of_lt_of_le hlt hle)]
            split <;> rfl
          · rw [if_neg (by omega), if_neg (by omega)]
            exact (hfollows.tracks { checkpoints := 2 } rfl hge).outcome (s := ⟨compiled, e.maxDepth, none⟩)

end Engine

end Validation

namespace Service

/-! ### Callers -/

/-- What the clock of a caller shows at a checkpoint before which `passed` others were passed. -/
def reading (clock : Clock) (passed : Nat) : Instant := (clock.drop 2)[passed]?.getD (clock.getLastD (.whole 0))

/-- Whether at a checkpoint a caller has cancelled or has no time left. -/
def isOver (s : Service) (caller : Caller) (passed : Nat) : Bool :=
  caller.cancelsAfter.any (· ≤ passed) ||
    (reading caller.clock passed).isAfter ((caller.clock.headD (.whole 0)).toDouble.add s.timeout)

/-- What a validation comes to that nothing stops. -/
def verdict (s : Service) (document schema : Text) : Except Failure (List Finding) :=
  answer .unexpected (s.engine.validate document schema)

variable {s : Service} {caller : Caller}

theorem any_findIdx? {α : Type} {p : α → Bool} {l : List α} {n : Nat} :
    (l.findIdx? p).any (· < n) = true ↔ ∃ i < n, l[i]?.any p = true := by
  cases h : l.findIdx? p with
  | none =>
      refine iff_of_false (by simp) ?_
      rintro ⟨i, -, hi⟩
      obtain ⟨a, ha, hp⟩ := (Option.any_eq_true _ _).1 hi
      exact nomatch (List.findIdx?_eq_none_iff.1 h a (List.mem_of_getElem? ha)).symm.trans hp
  | some j =>
      obtain ⟨hj, hp, hfirst⟩ := List.findIdx?_eq_some_iff_getElem.1 h
      simp only [Option.any_some, decide_eq_true_eq, Option.any_eq_true]
      constructor
      · intro hlt
        exact ⟨j, hlt, l[j], List.getElem?_eq_getElem hj, hp⟩
      · intro ⟨i, hlt, a, ha, hpa⟩
        obtain ⟨hi, rfl⟩ := List.getElem?_eq_some_iff.1 ha
        have hle : ¬ i < j := fun hij => hfirst i hij hpa
        omega

/-- At some checkpoint a clock shows each of its readings for checkpoints; behind the last it goes on showing that. -/
theorem exists_reading_iff {p : Instant → Bool} {clock : Clock} {n : Nat} :
    (∃ i < n, (checkpointReadings clock)[i]?.any p = true) ↔ ∃ i < n, p (reading clock i) = true := by
  rw [checkpointReadings]
  simp only [reading]
  cases hl : clock.drop 2 with
  | nil =>
      constructor
      · rintro ⟨i, hlt, hi⟩
        obtain ⟨b, hb, hp⟩ := (Option.any_eq_true _ _).1 hi
        obtain rfl := List.mem_singleton.1 (List.mem_of_getElem? hb)
        exact ⟨i, hlt, by simpa using hp⟩
      · rintro ⟨i, hlt, hi⟩
        exact ⟨0, by omega, by simpa using hi⟩
  | cons a later =>
      have hlast : clock.getLastD (.whole 0) = (a :: later).getLast (List.cons_ne_nil _ _) := by
        have hdrop : (clock.drop 2).getLast? = clock.getLast? := by
          rw [List.getLast?_drop, if_neg fun h => by simp [List.drop_eq_nil_iff.2 h] at hl]
        rw [List.getLastD_eq_getLast?, ← hdrop, hl, List.getLast?_eq_some_getLast (List.cons_ne_nil _ _)]
        rfl
      constructor
      · rintro ⟨i, hlt, hi⟩
        obtain ⟨b, hb, hp⟩ := (Option.any_eq_true _ _).1 hi
        exact ⟨i, hlt, by rw [hb]; exact hp⟩
      · rintro ⟨i, hlt, hi⟩
        rcases Nat.lt_or_ge i (a :: later).length with h | h
        · refine ⟨i, hlt, ?_⟩
          rw [List.getElem?_eq_getElem h] at hi ⊢
          exact hi
        · -- the last reading was shown before already
          refine ⟨(a :: later).length - 1, by omega, ?_⟩
          rw [List.getElem?_eq_none h, Option.getD_none, hlast, List.getLast_eq_getElem] at hi
          rw [List.getElem?_eq_getElem (by simp)]
          exact hi

/-- A caller stops a validation at the first checkpoint at which it has cancelled or has no time left. -/
theorem allowance_lt_iff {n : Nat} :
    (s.allowance caller).any (· < n) = true ↔ ∃ i < n, s.isOver caller i = true := by
  have htimed : (s.timedAllowance caller.clock).any (· < n) = true ↔ _ := any_findIdx?.trans exists_reading_iff
  have hmerge (a b : Option Nat) : (Option.merge min a b).any (· < n) = true ↔
      a.any (· < n) = true ∨ b.any (· < n) = true := by
    have hmin (i j : Nat) : min i j < n ↔ i < n ∨ j < n := by omega
    cases a <;> cases b <;> simp [Option.merge, hmin]
  have hcancel (a : Option Nat) : a.any (· < n) = true ↔ ∃ i < n, a.any (· ≤ i) = true := by
    cases a with
    | none => simp
    | some k =>
        simp only [Option.any_some, decide_eq_true_eq]
        refine ⟨fun h => ⟨k, h, Nat.le_refl k⟩, ?_⟩
        rintro ⟨i, hlt, hle⟩
        exact Nat.lt_of_le_of_lt hle hlt
  rw [allowance, hmerge, htimed, hcancel]
  simp only [isOver, Bool.or_eq_true, and_or_left, exists_or]

theorem interruption_cases : s.interruption caller = .cancelled ∨ s.interruption caller = .timedOut s.timeout := by
  rw [interruption]
  split
  · exact .inl rfl
  · exact .inr rfl

/-- What stopping would be told as does not matter to a run that is not stopped. -/
theorem answer_of_ne_stopped {outcome : Except Validation.Refusal (List Finding)} (h : outcome ≠ .error .stopped)
    (interruption : Failure) : answer interruption outcome = answer .unexpected outcome := by
  cases outcome with
  | ok findings => rfl
  | error cause =>
      cases cause with
      | stopped => exact absurd rfl h
      | _ => rfl

theorem outcome_run_allowance (document schema : Text) :
    (s.engine.run (s.allowance caller) document schema).outcome =
      if ∃ i < (s.engine.run none document schema).checkpoints, s.isOver caller i = true then .error .stopped
      else s.engine.validate document schema := by
  simp only [← allowance_lt_iff]
  cases s.allowance caller with
  | none => simp [Validation.Engine.validate]
  | some k => simp [Validation.Engine.outcome_run]

/-- Stopping is all or nothing. Of a run that may pass `k` checkpoints nothing is told but that it was stopped, if a run
without a bound, which is never stopped, passes more; else both come to the same end. So a caller is told that it has
cancelled or that its time is over, if it has or it is at any checkpoint that a run without a bound passes, and else
exactly what that run comes to. -/
theorem stopping_all_or_nothing (s : Service) (document schema : Text) :
    let free := s.engine.run none document schema
    free.outcome ≠ .error .stopped ∧
    (∀ k, (s.engine.run (some k) document schema).outcome =
      if k + 1 ≤ free.checkpoints then .error .stopped else free.outcome) ∧
    ∀ caller : Caller,
      (s.interruption caller = .cancelled ∨ s.interruption caller = .timedOut s.timeout) ∧
      s.validate caller document schema =
        if ∃ i < free.checkpoints, s.isOver caller i = true then .error (s.interruption caller)
        else s.verdict document schema := by
  intro free
  refine ⟨Validation.Engine.validate_ne_stopped, fun k => Validation.Engine.outcome_run k, fun caller =>
    ⟨interruption_cases, ?_⟩⟩
  rw [validate, outcome_run_allowance]
  split
  · rfl
  · exact answer_of_ne_stopped Validation.Engine.validate_ne_stopped _

end Service

end XmlSchema
