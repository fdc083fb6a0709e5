import Mathlib.Logic.Relation

namespace MakeBelieve.Library

/-- A state machine whose events fire one at a time: each is enabled in some states and, where it
is, leads to one next state. -/
structure Machine (σ ε : Type*) where
  init : σ → Prop
  enabled : σ → ε → Prop
  step : σ → ε → σ

namespace Machine

variable {σ ε : Type*} (m : Machine σ ε)

/-- One enabled event, which meets `ok` in the state it fires in. -/
def Next (ok : σ → ε → Prop) (s t : σ) : Prop :=
  ∃ e, m.enabled s e ∧ ok s e ∧ t = m.step s e

/-- Any number of events, each of which meets `ok`. -/
def Reaches (ok : σ → ε → Prop) : σ → σ → Prop := Relation.ReflTransGen (m.Next ok)

/-- The states runs lead to, over every interleaving of events that meet `ok`. -/
inductive Reachable (ok : σ → ε → Prop) : σ → Prop
  | start {s : σ} (h : m.init s) : Reachable ok s
  | next {s : σ} {e : ε} (h : Reachable ok s) (he : m.enabled s e) (hok : ok s e) :
      Reachable ok (m.step s e)

variable {m} {ok : σ → ε → Prop}

/-- The induction over runs, made once: what holds at the start and is kept by each event holds
in every state reached. -/
theorem Reachable.invariant {P : σ → Prop} (hinit : ∀ s, m.init s → P s)
    (hstep : ∀ s e, P s → m.enabled s e → ok s e → P (m.step s e))
    {s : σ} (h : m.Reachable ok s) : P s := by
  induction h with
  | start h => exact hinit _ h
  | next _ he hok ih => exact hstep _ _ ih he hok

/-- As `Reachable.invariant`, for a property whose step needs another invariant. -/
theorem Reachable.invariant_under {P Q : σ → Prop} (hQ : ∀ s, m.Reachable ok s → Q s)
    (hinit : ∀ s, m.init s → P s)
    (hstep : ∀ s e, Q s → P s → m.enabled s e → ok s e → P (m.step s e))
    {s : σ} (h : m.Reachable ok s) : P s := by
  induction h with
  | start h => exact hinit _ h
  | next hs he hok ih => exact hstep _ _ (hQ _ hs) ih he hok

theorem Reachable.weaken {ok' : σ → ε → Prop} (hw : ∀ s e, ok s e → ok' s e)
    {s : σ} (h : m.Reachable ok s) : m.Reachable ok' s := by
  induction h with
  | start h => exact .start h
  | next _ he hok ih => exact .next ih he (hw _ _ hok)

theorem Reachable.trans {s t : σ} (h : m.Reachable ok s) (hst : m.Reaches ok s t) :
    m.Reachable ok t := by
  induction hst with
  | refl => exact h
  | tail _ hn ih =>
    obtain ⟨e, he, hok, rfl⟩ := hn
    exact .next ih he hok

theorem Reaches.weaken {ok' : σ → ε → Prop} (hw : ∀ s e, ok s e → ok' s e) {s t : σ}
    (hst : m.Reaches ok s t) : m.Reaches ok' s t := by
  have hnext : m.Next ok ≤ m.Next ok' := fun _ _ ⟨e, he, hok, heq⟩ => ⟨e, he, hw _ _ hok, heq⟩
  exact Relation.ReflTransGen.mono hnext s t hst

/-- What each event keeps, whatever the state, is kept to the end of every run. -/
theorem Reaches.keeps {P : σ → Prop}
    (hstep : ∀ s e, P s → m.enabled s e → ok s e → P (m.step s e))
    {s t : σ} (hst : m.Reaches ok s t) (hs : P s) : P t := by
  induction hst with
  | refl => exact hs
  | tail _ hn ih =>
    obtain ⟨e, he, hok, rfl⟩ := hn
    exact hstep _ _ ih he hok

/-- The state a list of events leads to. -/
def runs (m : Machine σ ε) : σ → List ε → σ
  | s, [] => s
  | s, e :: es => runs m (m.step s e) es

/-- Each event of the list can fire where the ones before it lead. -/
def Fires (m : Machine σ ε) (ok : σ → ε → Prop) : σ → List ε → Prop
  | _, [] => True
  | s, e :: es => m.enabled s e ∧ ok s e ∧ Fires m ok (m.step s e) es

theorem Reachable.runs {s : σ} {es : List ε} (h : m.Reachable ok s) (hf : m.Fires ok s es) :
    m.Reachable ok (m.runs s es) := by
  induction es generalizing s with
  | nil => exact h
  | cons e es ih => exact ih (.next h hf.1 hf.2.1) hf.2.2

theorem Reaches.runs {s : σ} {es : List ε} (hf : m.Fires ok s es) :
    m.Reaches ok s (m.runs s es) := by
  induction es generalizing s with
  | nil => exact .refl
  | cons e es ih => exact .head ⟨e, hf.1, hf.2.1, rfl⟩ (ih hf.2.2)

/-- Whether each event of the list passes a check where the ones before it lead. -/
def allPass (m : Machine σ ε) (check : σ → ε → Bool) : σ → List ε → Bool
  | _, [] => true
  | s, e :: es => check s e && allPass m check (m.step s e) es

theorem Fires.of_allPass {check : σ → ε → Bool}
    (hcheck : ∀ s e, check s e = true → m.enabled s e ∧ ok s e) {s : σ} {es : List ε}
    (h : m.allPass check s es = true) : m.Fires ok s es := by
  induction es generalizing s with
  | nil => trivial
  | cons e es ih =>
    rw [allPass, Bool.and_eq_true] at h
    obtain ⟨he, hok⟩ := hcheck s e h.1
    exact ⟨he, hok, ih h.2⟩

theorem Fires.append {s : σ} {es es' : List ε} (hf : m.Fires ok s es)
    (hf' : m.Fires ok (m.runs s es) es') : m.Fires ok s (es ++ es') := by
  induction es generalizing s with
  | nil => exact hf'
  | cons e es ih => exact ⟨hf.1, hf.2.1, ih hf.2.2 hf'⟩

/-- Events that all meet a condition fire under it. -/
theorem Fires.of_forall {ok' : σ → ε → Prop} {s : σ} {es : List ε} (hf : m.Fires ok s es)
    (hes : ∀ e ∈ es, ∀ s, ok' s e) : m.Fires ok' s es := by
  induction es generalizing s with
  | nil => trivial
  | cons e es ih =>
    refine ⟨hf.1, hes e (by simp) s, ih hf.2.2 ?_⟩
    exact fun e' he' => hes e' (by simp [he'])

theorem Reachable.runs_of_allPass {check : σ → ε → Bool}
    (hcheck : ∀ s e, check s e = true → m.enabled s e ∧ ok s e) {s : σ} (h : m.Reachable ok s)
    (es : List ε) (hpass : m.allPass check s es = true) : m.Reachable ok (m.runs s es) :=
  h.runs (.of_allPass hcheck hpass)

/-- The machine begun only in the states of `p`. -/
def limit (m : Machine σ ε) (p : σ → Prop) : Machine σ ε where
  init s := m.init s ∧ p s
  enabled := m.enabled
  step := m.step

theorem Reachable.unlimited {p : σ → Prop} {s : σ} (h : (m.limit p).Reachable ok s) :
    m.Reachable ok s := by
  induction h with
  | start h => exact .start h.1
  | next _ he hok ih => exact .next ih he hok

/-! ### A note kept beside the state -/

/-- The machine with a note beside its state, which each event adds to and nothing depends on. -/
def noting {γ : Type*} (m : Machine σ ε) (blank : σ → γ) (note : σ → ε → γ → γ) :
    Machine (σ × γ) ε where
  init s := m.init s.1 ∧ s.2 = blank s.1
  enabled s := m.enabled s.1
  step s e := (m.step s.1 e, note s.1 e s.2)

/-- Without its note a run is one of the machine's own. -/
theorem Reachable.without_note {γ : Type*} {blank : σ → γ} {note : σ → ε → γ → γ}
    {ok : σ × γ → ε → Prop} {ok' : σ → ε → Prop} (hok : ∀ s e, ok s e → ok' s.1 e) {s : σ × γ}
    (h : (m.noting blank note).Reachable ok s) : m.Reachable ok' s.1 := by
  induction h with
  | start h => exact .start h.1
  | next _ he hs ih => exact .next ih he (hok _ _ hs)

theorem Reachable.unnoted {γ : Type*} {blank : σ → γ} {note : σ → ε → γ → γ}
    {ok : σ × γ → ε → Prop} {s : σ × γ} (h : (m.noting blank note).Reachable ok s) :
    m.Reachable (fun _ _ => True) s.1 :=
  h.without_note fun _ _ _ => trivial

end Machine

end MakeBelieve.Library
