import MakeBelieve.Tree.World

namespace MakeBelieve.Tree

open Library

instance (command : Command) : (start : Start) → Decidable (start.fits command)
  | .traced _ => inferInstanceAs (Decidable (command.action = .tracing))
  | .ran | .threw _ => inferInstanceAs (Decidable (command.action ≠ .tracing))

namespace World

variable {contentHash : Bytes → Hash} {cached : Bool} {w : World} {e : Event}

/-- Whether a step is seen to be enabled; of the coordinator's, permits and ends of work alone. -/
def fires (w : World) : Event → Bool
  | .bringUpToDate _ | .recordRead .. | .materializeAll | .editSource _ => true
  | .startNext output => decide (output ∈ w.starting)
  | .launch b start => decide ((w.builds b).stage = .claimed) &&
      (match (w.builds b).behind with
        | none => true
        | some c => decide ((w.builds c).stage = .over)) &&
      decide (start.fits (w.builds b).launch.command)
  | .endWork b result => decide ((w.builds b).stage = .working) &&
      (decide ((w.system.coord.attempts (w.builds b).launch.attempt).phase = .ended) ||
        decide ((w.system.coord.attempts (w.builds b).launch.attempt).phase = .queued) &&
          !result.isBuilt)
  | .publish b _ => decide (w.layout = none) &&
      match (w.builds b).stage with
      | .finishing (.built _ _) => true
      | _ => false
  | .write b => match (w.builds b).stage with
      | .writing .. => true
      | _ => false
  | .settle b => match (w.builds b).stage with
      | .finishing (.failed _ _) | .published .. => true
      | _ => false
  | .complete b => match (w.builds b).stage with
      | .settled .. => true
      | _ => false
  | .completeOrphaned b => match (w.builds b).stage with
      | .released .. => true
      | _ => false
  | .beginKeeping b => decide (w.cacheHolder = none) &&
      match (w.builds b).stage with
      | .keeping .. => true
      | _ => false
  | .stamp b => match (w.builds b).stage with
      | .stamping _ _ (_ :: _) (some _) => true
      | _ => false
  | .store b _ => match (w.builds b).stage with
      | .stamping _ _ left stamps => left.isEmpty || stamps.isNone
      | _ => false
  | .sourceChange .. => w.todo.isEmpty
  | .resume _ _ => match w.todo with
      | [] => false
      | .applyRules _ :: _ => decide (w.layout = none)
      | .forget outputs :: _ => decide (outputs = []) || decide (w.cacheHolder = none)
      | _ => true
  | .coordinator (.onPermit a) =>
      ((List.range w.buildCount).any fun b => decide ((w.builds b).stage = .working) &&
        decide ((w.builds b).launch.attempt = a)) &&
      decide ((w.system.coord.attempts a).phase = .queued)
  | .coordinator (.finish a) => decide ((w.system.coord.attempts a).phase = .running)
  | .coordinator _ => false

theorem enabled_of_fires (h : w.fires e = true) : w.enabled e := by
  cases e with
  | bringUpToDate | recordRead | materializeAll | editSource => trivial
  | startNext output => simpa [fires, enabled] using h
  | launch b start =>
    simp only [fires, Bool.and_eq_true, decide_eq_true_eq] at h
    obtain ⟨⟨hclaimed, hbehind⟩, hfits⟩ := h
    refine ⟨hclaimed, fun c hc => ?_, hfits⟩
    rw [hc] at hbehind
    exact of_decide_eq_true hbehind
  | endWork b result => simpa [fires, enabled] using h
  | publish b builtAt =>
    simp only [fires, Bool.and_eq_true, decide_eq_true_eq] at h
    obtain ⟨hlayout, hstage⟩ := h
    split at hstage
    · next bytes inputs hs => exact ⟨hlayout, bytes, inputs, hs⟩
    · simp at hstage
  | write b =>
    simp only [fires] at h
    split at h
    · next result builtAt keep hs => exact ⟨result, builtAt, keep, hs⟩
    · simp at h
  | settle b =>
    simp only [fires] at h
    split at h
    · next error inputs hs => exact .inl ⟨error, inputs, hs⟩
    · next result keep hs => exact .inr ⟨result, keep, hs⟩
    · simp at h
  | complete b =>
    simp only [fires] at h
    split at h
    · next result keep orphaned hs => exact ⟨result, keep, orphaned, hs⟩
    · simp at h
  | completeOrphaned b =>
    simp only [fires] at h
    split at h
    · next result keep orphaned hs => exact ⟨result, keep, orphaned, hs⟩
    · simp at h
  | beginKeeping b =>
    simp only [fires, Bool.and_eq_true, decide_eq_true_eq] at h
    obtain ⟨hcache, hstage⟩ := h
    split at hstage
    · next bytes keep hs => exact ⟨hcache, bytes, keep, hs⟩
    · simp at hstage
  | stamp b =>
    simp only [fires] at h
    split at h
    · next bytes keep input left stamps hs => exact ⟨bytes, keep, input, left, stamps, hs⟩
    · simp at h
  | store b ok =>
    simp only [fires] at h
    split at h
    · next bytes keep left stamps hs => exact ⟨bytes, keep, left, stamps, hs, by simpa using h⟩
    · simp at h
  | sourceChange => exact List.isEmpty_iff.mp h
  | resume now ok =>
    cases htodo : w.todo with
    | nil => simp [fires, htodo] at h
    | cons task todo =>
      refine ⟨task, todo, htodo, ?_⟩
      cases task with
      | applyRules commands => simpa [fires, htodo, Task.Free] using h
      | forget outputs => simpa [fires, htodo, Task.Free] using h
      | _ => trivial
  | coordinator e =>
    cases e with
    | onPermit a =>
      simp only [fires, Bool.and_eq_true, List.any_eq_true, decide_eq_true_eq] at h
      obtain ⟨⟨b, _, hworking, hattempt⟩, hqueued⟩ := h
      exact ⟨⟨b, hworking, hattempt⟩, hqueued⟩
    | finish a => exact ⟨trivial, by simpa [fires, Coordinator.System.enabled] using h⟩
    | _ => simp [fires] at h

/-- Whether each step of the list is seen to be enabled, and to pass a check, where the ones before
it lead. -/
def allFire {γ : Type} (contentHash : Bytes → Hash) (cached : Bool) (note : World → Event → γ → γ)
    (check : World × γ → Event → Bool) : World × γ → List Event → Bool
  | _, [] => true
  | s, e :: es => s.1.fires e && check s e &&
      allFire contentHash cached note check (s.1.step contentHash cached e, note s.1 e s.2) es

/-- The steps of such a list fire in any machine of the world's that begins somewhere. -/
theorem fires_of_allFire_of {γ : Type} {m : Machine World Event} (hm : m.enabled = enabled)
    (hstep : m.step = step contentHash cached) {blank : World → γ} {note : World → Event → γ → γ}
    {check : World × γ → Event → Bool} {ok : World × γ → Event → Prop} {s : World × γ}
    {es : List Event} (hs : (m.noting blank note).Reachable (fun _ _ => True) s)
    (hok : ∀ s e, (m.noting blank note).Reachable (fun _ _ => True) s →
      check s e = true → ok s e)
    (h : allFire contentHash cached note check s es = true) :
    (m.noting blank note).Fires ok s es := by
  induction es generalizing s with
  | nil => trivial
  | cons e es ih =>
    rw [allFire, Bool.and_eq_true, Bool.and_eq_true] at h
    have he : (m.noting blank note).enabled s e := by
      show m.enabled s.1 e
      rw [hm]
      exact enabled_of_fires h.1.1
    have hnext : (m.noting blank note).step s e =
        (s.1.step contentHash cached e, note s.1 e s.2) := by
      show (m.step s.1 e, _) = _
      rw [hstep]
    exact ⟨he, hok s e hs h.1.2, ih (hs.next he trivial) (by rw [hnext]; exact h.2)⟩

theorem fires_of_allFire {γ : Type} {blank : World → γ} {note : World → Event → γ → γ}
    {check : World × γ → Event → Bool} {ok : World × γ → Event → Prop} {s : World × γ}
    {es : List Event}
    (hs : ((machine contentHash cached).noting blank note).Reachable (fun _ _ => True) s)
    (hok : ∀ s e, ((machine contentHash cached).noting blank note).Reachable (fun _ _ => True) s →
      check s e = true → ok s e)
    (h : allFire contentHash cached note check s es = true) :
    ((machine contentHash cached).noting blank note).Fires ok s es :=
  fires_of_allFire_of rfl rfl hs hok h

end World

end MakeBelieve.Tree
