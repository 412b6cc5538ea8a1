import XmlSchema.Proofs.Schema.Registration

/-!
Substitution, whatever the order of the elements. The heads of an element depend on what each element names as its head
alone, and an element stands for a head once for each time that the head is among its heads.
-/

namespace XmlSchema.Schema

variable {elements elements' : List PendingElement}

/-- The head that the element of a name tells. -/
def headOf (elements : List PendingElement) (name : Name) : Option Name :=
  ((elements.map fun e => (e.declaration.name, e.declaration.head)).lookup name).join

/-- All heads of an element, unless they come back. -/
def headsOf (elements : List PendingElement) (e : PendingElement) : Option (List Name) :=
  headsFrom (headOf elements) elements.length [e.declaration.name] e.declaration.head

/-- What becomes of substitution with one more element. -/
def Substitution.add (sub : Substitution) (name : Name) (heads : List Name) : Substitution where
  heads := (name, heads) :: sub.heads
  members := heads.foldl (addSubstitute name) sub.members

/-- One element adds to a substitution if its heads can be told. -/
theorem addHeads_eq_ok {e : PendingElement} {sub sub' : Substitution} {heads : Option (List Name)}
    {fault : SchemaFault} :
    (match heads with
      | none => e.item.fail fault
      | some heads => pure (sub.add e.declaration.name heads)) = .ok sub' ↔
      heads.isSome = true ∧ sub' = sub.add e.declaration.name (heads.getD []) := by
  cases heads with
  | none => simp
  | some heads => simpa using eq_comm

theorem substitution_eq_ok {sub : Substitution} : substitution elements = .ok sub ↔
    (∀ e ∈ elements, ∀ head, e.declaration.head = some head → head ∈ elements.map (·.declaration.name)) ∧
      (∀ e ∈ elements, (headsOf elements e).isSome = true) ∧
      sub = elements.foldl (fun sub e => sub.add e.declaration.name ((headsOf elements e).getD [])) {} := by
  rw [substitution, Build.bind_eq_ok]
  simp only [exists_and_right]
  refine and_congr ?_ (Build.foldlM_eq_ok fun sub e sub' => ?_)
  · refine (exists_congr fun u => Build.forIn_eq_ok (P := fun e => ∀ head, e.declaration.head = some head →
      head ∈ elements.map (·.declaration.name)) fun e x => ?_).trans (exists_const PUnit)
    cases e.declaration.head with
    | none => simpa using eq_comm
    | some head =>
        refine (Build.check_eq_ok (by simp)).trans (and_congr_left fun _ => ?_)
        simp
  · exact addHeads_eq_ok

/-! ### Tables -/

theorem foldl_heads (f : PendingElement → List Name) (l : List PendingElement) (sub : Substitution) :
    (l.foldl (fun sub e => sub.add e.declaration.name (f e)) sub).heads =
      (l.map fun e => (e.declaration.name, f e)).reverse ++ sub.heads := by
  induction l generalizing sub with
  | nil => rfl
  | cons e l ih =>
      rw [List.foldl_cons, ih, List.map_cons, List.reverse_cons, List.append_assoc]
      rfl

theorem lookup_addSubstitute (member : Name) (table : List (Name × List Name)) (head name : Name) :
    ((addSubstitute member table head).lookup name).getD [] =
      (table.lookup name).getD [] ++ if head = name then [member] else [] := by
  induction table with
  | nil =>
      by_cases h : head = name
      · simp [addSubstitute, h]
      · simp [addSubstitute, h, List.lookup_cons, beq_false_of_ne (Ne.symm h)]
  | cons p table ih =>
      obtain ⟨other, members⟩ := p
      rw [addSubstitute]
      split
      · next ho =>
          subst ho
          by_cases h : other = name
          · simp [h]
          · simp [List.lookup_cons, beq_false_of_ne (Ne.symm h), h]
      · next ho =>
          by_cases h : other = name
          · subst h
            simp [Ne.symm ho]
          · simpa [List.lookup_cons, beq_false_of_ne (Ne.symm h)] using ih

theorem lookup_foldl_addSubstitute (member : Name) (heads : List Name) (table : List (Name × List Name))
    (name : Name) : ((heads.foldl (addSubstitute member) table).lookup name).getD [] =
      (table.lookup name).getD [] ++ (heads.filter fun head => head = name).map fun _ => member := by
  induction heads generalizing table with
  | nil => simp
  | cons head heads ih =>
      rw [List.foldl_cons, ih, lookup_addSubstitute, List.append_assoc, List.filter_cons]
      split <;> simp_all

theorem lookup_foldl_members (f : PendingElement → List Name) (l : List PendingElement) (sub : Substitution)
    (name : Name) : ((l.foldl (fun sub e => sub.add e.declaration.name (f e)) sub).members.lookup name).getD [] =
      (sub.members.lookup name).getD [] ++
        l.flatMap fun e => ((f e).filter fun head => head = name).map fun _ => e.declaration.name := by
  induction l generalizing sub with
  | nil => simp
  | cons e l ih =>
      rw [List.foldl_cons, ih, List.flatMap_cons, ← List.append_assoc]
      congr 1
      exact lookup_foldl_addSubstitute e.declaration.name (f e) sub.members name

/-! ### Elements in another order -/

theorem headsOf_perm (h : elements.Perm elements') (hnames : (elements.map (·.declaration.name)).Nodup)
    (e : PendingElement) : headsOf elements' e = headsOf elements e := by
  have hhead : headOf elements' = headOf elements := by
    funext name
    rw [headOf, headOf, lookup_perm (h.map _)]
    rwa [List.map_map]
  rw [headsOf, headsOf, hhead, h.length_eq]

/-- In whatever order the elements come, their heads are the same, and so are the elements that stand for a head but for
their order. -/
theorem substitution_perm (h : elements.Perm elements') (hnames : (elements.map (·.declaration.name)).Nodup)
    {sub : Substitution} (hsub : substitution elements = .ok sub) :
    ∃ sub', substitution elements' = .ok sub' ∧ (∀ name, sub'.heads.lookup name = sub.heads.lookup name) ∧
      ∀ name, ((sub'.members.lookup name).getD []).Perm ((sub.members.lookup name).getD []) := by
  obtain ⟨hheads, hends, rfl⟩ := substitution_eq_ok.1 hsub
  have hsame := headsOf_perm h hnames
  refine ⟨_, substitution_eq_ok.2 ⟨fun e he head hhead => ?_, fun e he => ?_, rfl⟩, fun name => ?_, fun name => ?_⟩
  · exact (h.map _).mem_iff.1 (hheads e (h.mem_iff.2 he) head hhead)
  · rw [hsame]
    exact hends e (h.mem_iff.2 he)
  · simp only [foldl_heads, hsame, List.append_nil]
    refine lookup_perm (((List.reverse_perm _).trans (h.map _)).trans (List.reverse_perm _).symm) ?_ name
    rw [List.map_reverse, List.map_map]
    exact List.nodup_reverse.2 hnames
  · simp only [lookup_foldl_members, hsame]
    exact (h.symm.flatMap_right _).append_left _

end XmlSchema.Schema
