import MakeBelieve.Tree.Transitions

namespace MakeBelieve.Tree.State

@[simp] theorem membersOf_update (sets : Path → Option (List Path)) (key : Path)
    (members : Option (List Path)) (other : Path) :
    membersOf (Function.update sets key members) other =
      if other = key then members.getD [] else membersOf sets other := by
  by_cases h : other = key
  · subst h
    simp [membersOf]
  · simp [membersOf, h]

theorem mem_dropDependent {output reader input other : Path}
    {dependents : Path → Option (List Path)} :
    reader ∈ membersOf (dropDependent output dependents input) other ↔
      reader ∈ membersOf dependents other ∧ ¬(other = input ∧ reader = output) := by
  unfold dropDependent
  cases hi : dependents input with
  | none =>
    constructor
    · intro h
      refine ⟨h, fun ⟨heq, _⟩ => ?_⟩
      subst heq
      simp [membersOf, hi] at h
    · exact fun h => h.1
  | some readers =>
    show reader ∈ membersOf (Function.update dependents input _) other ↔ _
    rw [membersOf_update]
    by_cases h : other = input
    · subst h
      have hmem : membersOf dependents other = readers := by simp [membersOf, hi]
      rw [if_pos rfl, hmem]
      by_cases hempty : readers.filter (fun reader => reader ≠ output) = []
      · rw [if_pos hempty]
        have hall := List.filter_eq_nil_iff.mp hempty
        simp only [Option.getD_none, List.not_mem_nil, true_and, false_iff, not_and, not_not]
        intro hr
        simpa using hall reader hr
      · rw [if_neg hempty]
        simp
    · rw [if_neg h]
      simp [h]

theorem mem_foldl_dropDependent {output reader other : Path} {inputs : List Path}
    {dependents : Path → Option (List Path)} :
    reader ∈ membersOf (inputs.foldl (dropDependent output) dependents) other ↔
      reader ∈ membersOf dependents other ∧ ¬(other ∈ inputs ∧ reader = output) := by
  induction inputs generalizing dependents with
  | nil => simp
  | cons input inputs ih =>
    rw [List.foldl_cons, ih, mem_dropDependent, List.mem_cons]
    tauto

theorem mem_addDependent {output reader input other : Path}
    {dependents : Path → Option (List Path)} :
    reader ∈ membersOf (addDependent output dependents input) other ↔
      reader ∈ membersOf dependents other ∨ (other = input ∧ reader = output) := by
  unfold addDependent
  rw [membersOf_update]
  by_cases h : other = input
  · subst h
    rw [if_pos rfl]
    simp only [Option.getD_some, List.mem_insert_iff, true_and]
    tauto
  · rw [if_neg h]
    simp [h]

theorem mem_foldl_addDependent {output reader other : Path} {inputs : List Path}
    {dependents : Path → Option (List Path)} :
    reader ∈ membersOf (inputs.foldl (addDependent output) dependents) other ↔
      reader ∈ membersOf dependents other ∨ (other ∈ inputs ∧ reader = output) := by
  induction inputs generalizing dependents with
  | nil => simp
  | cons input inputs ih =>
    rw [List.foldl_cons, ih, mem_addDependent, List.mem_cons]
    tauto

variable {s : State} {output : Path} {inputs : List Path}

theorem mem_dependents_updateDependents {reader input : Path} :
    reader ∈ membersOf (s.updateDependents output inputs).dependents input ↔
      (reader ∈ membersOf s.dependents input ∧
        ¬(input ∈ membersOf s.dependencies output ∧ reader = output)) ∨
      (input ∈ inputs ∧ reader = output) := by
  show reader ∈ membersOf (inputs.foldl (addDependent output) _) input ↔ _
  rw [mem_foldl_addDependent, mem_foldl_dropDependent]

/-- The outputs an input is mapped to are those whose inputs include it. -/
def Inverse (s : State) : Prop :=
  ∀ input reader, reader ∈ membersOf s.dependents input ↔ input ∈ membersOf s.dependencies reader

theorem Inverse.updateDependents (h : s.Inverse) : (s.updateDependents output inputs).Inverse := by
  intro input reader
  rw [mem_dependents_updateDependents]
  have hdeps : membersOf (s.updateDependents output inputs).dependencies reader =
      if reader = output then inputs else membersOf s.dependencies reader := by
    show membersOf (Function.update s.dependencies output (some inputs)) reader = _
    rw [membersOf_update]
    rfl
  rw [hdeps, h input reader]
  by_cases hro : reader = output
  · subst hro
    simp
  · simp [hro]

end MakeBelieve.Tree.State
