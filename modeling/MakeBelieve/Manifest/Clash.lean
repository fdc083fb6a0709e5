import MakeBelieve.Manifest.Accept

namespace MakeBelieve.Manifest

/-- What a rule declares: itself, or as a wildcard what it stands for given a name. -/
def Rule.declares (rule : Rule) : Option Name → Option Rule
  | none => if rule.isWildcard then none else some rule
  | some name => if rule.isWildcard then instantiate rule name else none

theorem instantiate_some {rule matched : Rule} {name : Name}
    (h : instantiate rule name = some matched) :
    (NamePattern.ofName (filename rule.wildcardSource)).accepts name = true ∧
      matched.output = rule.output.dropLast ++ [(NamePattern.ofName (filename rule.output)).before ++
        (NamePattern.ofName (filename rule.wildcardSource)).stem name ++ rule.suffix] := by
  unfold instantiate at h
  dsimp only at h
  split at h
  · next haccepts =>
    obtain rfl := Option.some.inj h
    exact ⟨haccepts, rfl⟩
  · simp at h

/-- What a wildcard declares is in its directory, with its suffix. -/
theorem instantiate_bans {rule matched : Rule} {name : Name}
    (hwildcard : rule.isWildcard = true) (h : instantiate rule name = some matched) :
    rule.Bans matched.output ∧ matched.output ≠ [] ∧
      matched.output.dropLast = rule.output.dropLast := by
  obtain ⟨_, houtput⟩ := instantiate_some h
  refine ⟨⟨hwildcard, ?_, ?_⟩, ?_, ?_⟩
  · rw [houtput, List.dropLast_concat]
  · rw [houtput, filename_concat]
    exact List.suffix_append _ _
  · rw [houtput]
    simp
  · rw [houtput, List.dropLast_concat]

/-- What is at or above an output is that, or on the way there. -/
theorem prefix_cases {path output : Path} (hne : path ≠ []) (h : path <+: output) :
    path = output ∨ path ∈ parents output := by
  by_cases heq : path = output
  · exact .inl heq
  · refine .inr (mem_parents.mpr ⟨hne, ?_⟩)
    have houtput : output ≠ [] := by
      rintro rfl
      exact hne (List.prefix_nil.mp h)
    exact (Tree.above_iff houtput).mp ⟨h, heq⟩

/-- Of rules that are apart, nothing one declares is at or above what the other does. -/
theorem Apart.declares {a b declared declared' : Rule} (h : Apart a b) (ha : a.Proper)
    {given given' : Option Name} (hd : a.declares given = some declared)
    (hd' : b.declares given' = some declared') : ¬declared.output <+: declared'.output := by
  intro hpre
  have hparents : ∀ {matched : Rule}, matched.output.dropLast = b.output.dropLast →
      parents matched.output = parents b.output := by
    intro matched heq
    unfold parents
    rw [heq]
  cases given with
  | none =>
    obtain ⟨hliteral, rfl⟩ : a.isWildcard = false ∧ a = declared := by
      simpa [Rule.declares] using hd
    have hne := ha.output.nonempty
    cases given' with
    | none =>
      obtain ⟨_, rfl⟩ : b.isWildcard = false ∧ b = declared' := by
        simpa [Rule.declares] using hd'
      refine h.1 (.file hliteral ?_)
      obtain heq | hin := prefix_cases hne hpre
      · exact heq ▸ List.mem_cons_self ..
      · exact List.mem_cons_of_mem _ hin
    | some name =>
      obtain ⟨hwildcard, hmatched⟩ : b.isWildcard = true ∧ instantiate b name = some declared' := by
        simpa [Rule.declares] using hd'
      obtain ⟨hbans, _, hdirectory⟩ := instantiate_bans hwildcard hmatched
      obtain heq | hin := prefix_cases hne hpre
      · exact h.2 (.ends hliteral (heq ▸ hbans))
      · exact h.1 (.file hliteral (List.mem_cons_of_mem _ (hparents hdirectory ▸ hin)))
  | some name =>
    obtain ⟨hwildcard, hmatched⟩ : a.isWildcard = true ∧ instantiate a name = some declared := by
      simpa [Rule.declares] using hd
    obtain ⟨hbans, hne, hdirectory⟩ := instantiate_bans hwildcard hmatched
    cases given' with
    | none =>
      obtain ⟨hliteral, rfl⟩ : b.isWildcard = false ∧ b = declared' := by
        simpa [Rule.declares] using hd'
      obtain heq | hin := prefix_cases hne hpre
      · exact h.1 (.ends hliteral (heq ▸ hbans))
      · exact h.1 (.inside _ hin hbans)
    | some name' =>
      obtain ⟨hwildcard', hmatched'⟩ : b.isWildcard = true ∧ instantiate b name' = some declared' := by
        simpa [Rule.declares] using hd'
      obtain ⟨hbans', _, hdirectory'⟩ := instantiate_bans hwildcard' hmatched'
      obtain heq | hin := prefix_cases hne hpre
      · have hsame : a.output.dropLast = b.output.dropLast := by
          rw [← hdirectory, ← hdirectory', heq]
        obtain hsuffix | hsuffix := List.suffix_or_suffix_of_suffix hbans.2.2 (heq ▸ hbans'.2.2)
        · exact h.1 (.both hwildcard' hwildcard hsame hsuffix)
        · exact h.2 (.both hwildcard hwildcard' hsame.symm hsuffix)
      · exact h.1 (.inside _ (hparents hdirectory' ▸ hin) hbans)

/-- What one rule declares is nowhere twice. -/
theorem declares_inj {rule declared declared' : Rule} {given given' : Option Name}
    (hd : rule.declares given = some declared) (hd' : rule.declares given' = some declared')
    (hpre : declared.output <+: declared'.output) : given = given' := by
  cases hw : rule.isWildcard with
  | false =>
    cases given with
    | some name => simp [Rule.declares, hw] at hd
    | none =>
      cases given' with
      | some name => simp [Rule.declares, hw] at hd'
      | none => rfl
  | true =>
    cases given with
    | none => simp [Rule.declares, hw] at hd
    | some name =>
      cases given' with
      | none => simp [Rule.declares, hw] at hd'
      | some name' =>
        simp only [Rule.declares, hw, if_true] at hd hd'
        have hlength : declared.output.length = declared'.output.length := by
          rw [(instantiate_some hd).2, (instantiate_some hd').2]
          simp
        rw [instantiate_inj hd hd' (hpre.eq_of_length hlength)]

theorem declaredRules_apart {lines : List (List Char)} (h : Accepted lines) {i j : Nat}
    {rule other declared declared' : Rule} {given given' : Option Name}
    (hi : (declaredRules lines)[i]? = some rule) (hj : (declaredRules lines)[j]? = some other)
    (hd : rule.declares given = some declared) (hd' : other.declares given' = some declared')
    (hpre : declared.output <+: declared'.output) : i = j ∧ given = given' := by
  have hproper := declaredRules_proper rule (List.mem_of_getElem? hi)
  obtain ⟨hlt, hi⟩ := List.getElem?_eq_some_iff.mp hi
  obtain ⟨hlt', hj⟩ := List.getElem?_eq_some_iff.mp hj
  have hapart := List.pairwise_iff_getElem.mp h.apart
  obtain hij | rfl | hij := Nat.lt_trichotomy i j
  · have hrules := hapart i j hlt hlt' hij
    rw [hi, hj] at hrules
    exact absurd hpre (hrules.declares hproper hd hd')
  · obtain rfl : rule = other := hi.symm.trans hj
    exact ⟨rfl, declares_inj hd hd' hpre⟩
  · have hrules := hapart j i hlt' hlt hij
    rw [hi, hj] at hrules
    exact absurd hpre (hrules.symm.declares hproper hd hd')

end MakeBelieve.Manifest
