import Mathlib.Logic.Relation

namespace MakeBelieve.Library

/-! ### Transitive closure in place -/

variable {α : Type*} {f : α → α → Bool} {via a b x y : α}

/-- What a loop's body never unsets is set after it. -/
theorem foldl_mono {β : Type*} {step : (α → α → Bool) → β → α → α → Bool}
    (hstep : ∀ f i x y, f x y = true → step f i x y = true) (is : List β) (h : f x y = true) :
    is.foldl step f x y = true := by
  induction is generalizing f with
  | nil => exact h
  | cons i is ih => exact ih (hstep f i x y h)

/-- What the body sets in one of its turns, given what it never unsets, is set after the loop. -/
theorem foldl_sets {β : Type*} {step : (α → α → Bool) → β → α → α → Bool}
    (hstep : ∀ f i x y, f x y = true → step f i x y = true) {is : List β} {i : β} (hi : i ∈ is)
    {given : (α → α → Bool) → Prop} (hgiven : ∀ f i, given f → given (step f i))
    (hset : ∀ f, given f → step f i x y = true) (h : given f) : is.foldl step f x y = true := by
  induction is generalizing f with
  | nil => simp at hi
  | cons j is ih =>
    rw [List.foldl_cons]
    obtain rfl | hi := List.mem_cons.mp hi
    · exact foldl_mono hstep is (hset f h)
    · exact ih hi (hgiven f j h)

/-- A chain of steps whose ends between are among those of `mids`. -/
inductive Chain (r : α → α → Prop) (mids : List α) : α → α → Prop
  | one {a b : α} (h : r a b) : Chain r mids a b
  | more {a c b : α} (h : Chain r mids a c) (hmid : c ∈ mids) (hstep : r c b) : Chain r mids a b

/-- With one more end to pass through, a chain passes it or does without. -/
theorem Chain.split {r : α → α → Prop} {mids : List α} (h : Chain r (mids ++ [via]) a b) :
    Chain r mids a b ∨ Chain r mids a via ∧ Chain r mids via b := by
  induction h with
  | one h => exact .inl (.one h)
  | @more c b _ hmid hstep ih =>
    obtain hmid | hmid := List.mem_append.mp hmid
    · exact ih.imp (fun h => .more h hmid hstep) fun ⟨hto, hfrom⟩ => ⟨hto, .more hfrom hmid hstep⟩
    · obtain rfl := List.mem_singleton.mp hmid
      exact .inr ⟨ih.elim id And.left, .one hstep⟩

variable [DecidableEq α]

/-- An entry is set where `via` lies between. -/
def relax (via : α) (f : α → α → Bool) (a b : α) : α → α → Bool :=
  fun x y => if x = a ∧ y = b then f a b || (f a via && f via b) else f x y

/-- Each entry in turn, from what the ones before it have left. -/
def closeVia (indices : List α) (f : α → α → Bool) (via : α) : α → α → Bool :=
  indices.foldl (fun f a => indices.foldl (fun f b => relax via f a b) f) f

def closeOver (indices : List α) (f : α → α → Bool) : α → α → Bool :=
  indices.foldl (closeVia indices) f

variable {indices : List α}

theorem relax_mono (h : f x y = true) : relax via f a b x y = true := by
  unfold relax
  split
  · next heq =>
    obtain ⟨rfl, rfl⟩ := heq
    rw [h, Bool.true_or]
  · exact h

theorem relax_sets (hto : f a via = true) (hfrom : f via b = true) :
    relax via f a b a b = true := by
  simp [relax, hto, hfrom]

theorem closeVia_mono (h : f x y = true) : closeVia indices f via x y = true :=
  foldl_mono (fun _ _ _ _ h => foldl_mono (fun _ _ _ _ h => relax_mono h) _ h) _ h

theorem closeVia_sets (ha : a ∈ indices) (hb : b ∈ indices) (hto : f a via = true)
    (hfrom : f via b = true) : closeVia indices f via a b = true := by
  have hrow : ∀ (f : α → α → Bool) (i x y : α), f x y = true →
      indices.foldl (fun f b => relax via f i b) f x y = true :=
    fun _ _ _ _ h => foldl_mono (fun _ _ _ _ h => relax_mono h) _ h
  refine @foldl_sets _ _ _ _ _ _ hrow _ a ha (fun f => f a via = true ∧ f via b = true)
    (fun f i h => ⟨hrow f i _ _ h.1, hrow f i _ _ h.2⟩) (fun f h => ?_) ⟨hto, hfrom⟩
  exact @foldl_sets _ _ _ _ _ _ (fun _ _ _ _ h => relax_mono h) _ b hb
    (fun f => f a via = true ∧ f via b = true)
    (fun _ _ h => ⟨relax_mono h.1, relax_mono h.2⟩) (fun _ h => relax_sets h.1 h.2) h

/-- What an entry says at any time is so. -/
theorem closeOver_sound {r : α → α → Prop} (h : ∀ x y, f x y = true → Relation.TransGen r x y)
    (hset : closeOver indices f x y = true) : Relation.TransGen r x y := by
  have hfold : ∀ {β : Type _} {step : (α → α → Bool) → β → α → α → Bool},
      (∀ f i, (∀ x y, f x y = true → Relation.TransGen r x y) →
        ∀ x y, step f i x y = true → Relation.TransGen r x y) →
      ∀ (is : List β) (f : α → α → Bool), (∀ x y, f x y = true → Relation.TransGen r x y) →
        ∀ x y, is.foldl step f x y = true → Relation.TransGen r x y := by
    intro β step hstep is
    induction is with
    | nil => exact fun f h => h
    | cons i is ih => exact fun f h => ih _ (hstep f i h)
  refine hfold (fun f via h => ?_) indices f h x y hset
  refine hfold (fun f a h => ?_) indices f h
  refine hfold (fun f b h x y hxy => ?_) indices f h
  unfold relax at hxy
  split at hxy
  · next heq =>
    obtain ⟨rfl, rfl⟩ := heq
    obtain hold | hnew := Bool.or_eq_true_iff.mp hxy
    · exact h _ _ hold
    · obtain ⟨hto, hfrom⟩ := Bool.and_eq_true_iff.mp hnew
      exact (h _ _ hto).trans (h _ _ hfrom)
  · exact h _ _ hxy

/-- Once every index has lain between, the entries that are set are those a chain leads to. -/
theorem closeOver_iff (hin : ∀ x y, f x y = true → x ∈ indices ∧ y ∈ indices) :
    closeOver indices f a b = true ↔ Relation.TransGen (fun x y => f x y = true) a b := by
  let r := fun x y => f x y = true
  refine ⟨closeOver_sound fun x y h => .single h, fun h => ?_⟩
  have hchain : Chain r indices a b := by
    induction h with
    | single h => exact .one h
    | tail _ hstep ih => exact .more ih (hin _ _ hstep).1 hstep
  have hends : ∀ {x y}, Chain r indices x y → x ∈ indices ∧ y ∈ indices := by
    intro x y h
    induction h with
    | one h => exact hin _ _ h
    | more _ _ hstep ih => exact ⟨ih.1, (hin _ _ hstep).2⟩
  -- The chains through the indices that have lain between so far.
  have hphase : ∀ (rest done : List α), done ++ rest = indices → ∀ g : α → α → Bool,
      (∀ x y, x ∈ indices → y ∈ indices → Chain r done x y → g x y = true) →
      ∀ x y, x ∈ indices → y ∈ indices → Chain r indices x y →
        rest.foldl (closeVia indices) g x y = true := by
    intro rest
    induction rest with
    | nil =>
      intro done hdone g hg x y hx hy hxy
      rw [← hdone, List.append_nil] at hxy
      exact hg x y hx hy hxy
    | cons via rest ih =>
      intro done hdone g hg x y hx hy hxy
      have hvia : via ∈ indices := by simp [← hdone]
      refine ih (done ++ [via]) (by simpa using hdone) (closeVia indices g via)
        (fun x y hx hy h => ?_) x y hx hy hxy
      obtain h | ⟨hto, hfrom⟩ := h.split
      · exact closeVia_mono (hg x y hx hy h)
      · exact closeVia_sets hx hy (hg x via hx hvia hto) (hg via y hvia hy hfrom)
  refine hphase indices [] rfl f (fun x y _ _ h => ?_) a b (hends hchain).1 (hends hchain).2 hchain
  cases h with
  | one h => exact h
  | more _ hmid => simp at hmid

end MakeBelieve.Library
