import Mathlib.Order.WellFounded
import MakeBelieve.Library.Machine

namespace MakeBelieve.Library

variable {σ ε : Type*} {m : Machine σ ε} {ok : σ → ε → Prop}

theorem Machine.Fires.getElem? {s : σ} {es : List ε} (hf : m.Fires ok s es) {n : Nat} {e : ε}
    (h : es[n]? = some e) :
    m.enabled (m.runs s (es.take n)) e ∧ ok (m.runs s (es.take n)) e ∧
      m.runs s (es.take (n + 1)) = m.step (m.runs s (es.take n)) e := by
  induction es generalizing s n with
  | nil => simp at h
  | cons first es ih =>
    cases n with
    | zero =>
      obtain rfl := Option.some.inj h
      exact ⟨hf.1, hf.2.1, rfl⟩
    | succ n => exact ih hf.2.2 h

/-- A run that never ends, in which there may be times when nothing happens. -/
structure Run (m : Machine σ ε) (ok : σ → ε → Prop) where
  state : Nat → σ
  event : Nat → Option ε
  init : m.init (state 0)
  idle : ∀ n, event n = none → state (n + 1) = state n
  next : ∀ n e, event n = some e → m.enabled (state n) e ∧ ok (state n) e ∧
    state (n + 1) = m.step (state n) e

namespace Run

variable (r : Run m ok)

theorem reachable (n : Nat) : m.Reachable ok (r.state n) := by
  induction n with
  | zero => exact .start r.init
  | succ n ih =>
    cases hevent : r.event n with
    | none =>
      rw [r.idle n hevent]
      exact ih
    | some e =>
      obtain ⟨he, hok, hnext⟩ := r.next n e hevent
      rw [hnext]
      exact .next ih he hok

/-- What each event keeps holds from then on. -/
theorem keeps {P : σ → Prop}
    (hstep : ∀ s e, m.Reachable ok s → m.enabled s e → ok s e → P s → P (m.step s e))
    {n k : Nat} (hle : n ≤ k) (hn : P (r.state n)) : P (r.state k) := by
  induction k, hle using Nat.le_induction with
  | base => exact hn
  | succ k _ ih =>
    cases hevent : r.event k with
    | none =>
      rw [r.idle k hevent]
      exact ih
    | some e =>
      obtain ⟨he, hok, hnext⟩ := r.next k e hevent
      rw [hnext]
      exact hstep _ e (r.reachable k) he hok ih

/-- Whenever the run is in `P` it comes to `Q`, then or later. -/
def LeadsTo (P Q : σ → Prop) : Prop := ∀ n, P (r.state n) → ∃ k, n ≤ k ∧ Q (r.state k)

variable {r}

theorem LeadsTo.trans {P Q R : σ → Prop} (h : r.LeadsTo P Q) (h' : r.LeadsTo Q R) :
    r.LeadsTo P R := by
  intro n hn
  obtain ⟨k, hk, hq⟩ := h n hn
  obtain ⟨l, hl, hr⟩ := h' k hq
  exact ⟨l, Nat.le_trans hk hl, hr⟩

theorem LeadsTo.or {P P' Q : σ → Prop} (h : r.LeadsTo P Q) (h' : r.LeadsTo P' Q) :
    r.LeadsTo (fun s => P s ∨ P' s) Q :=
  fun n hn => hn.elim (h n) (h' n)

theorem LeadsTo.of_imp {P Q : σ → Prop} (h : ∀ n, P (r.state n) → Q (r.state n)) :
    r.LeadsTo P Q :=
  fun n hn => ⟨n, Nat.le_refl n, h n hn⟩

/-- A rank that no event raises and that helpful events lower, as long as one of these always
follows, leads from `P` to `Q`. -/
theorem leadsTo_of_rank {α : Type*} [Preorder α] [WellFoundedLT α] {P Q : σ → Prop}
    (rank : σ → α) (helps : σ → ε → Prop)
    (hstep : ∀ s e, m.Reachable ok s → m.enabled s e → ok s e → P s →
      Q (m.step s e) ∨ P (m.step s e) ∧ rank (m.step s e) ≤ rank s ∧
        (helps s e → rank (m.step s e) < rank s))
    (hfair : ∀ n, P (r.state n) → ∃ k, n ≤ k ∧ ∃ e, r.event k = some e ∧ helps (r.state k) e) :
    r.LeadsTo P Q := by
  have hkeeps : ∀ n k, n ≤ k → P (r.state n) →
      (∃ l, n ≤ l ∧ Q (r.state l)) ∨ P (r.state k) ∧ rank (r.state k) ≤ rank (r.state n) := by
    intro n k hle hn
    induction k, hle using Nat.le_induction with
    | base => exact .inr ⟨hn, le_refl _⟩
    | succ k hle ih =>
      obtain hq | ⟨hk, hrank⟩ := ih
      · exact .inl hq
      cases hevent : r.event k with
      | none =>
        rw [r.idle k hevent]
        exact .inr ⟨hk, hrank⟩
      | some e =>
        obtain ⟨he, hok, hnext⟩ := r.next k e hevent
        rw [hnext]
        obtain hq | ⟨hp, hle', _⟩ := hstep _ e (r.reachable k) he hok hk
        · exact .inl ⟨k + 1, by omega, hnext ▸ hq⟩
        · exact .inr ⟨hp, hle'.trans hrank⟩
  suffices hwf : ∀ a n, rank (r.state n) = a → P (r.state n) → ∃ l, n ≤ l ∧ Q (r.state l) from
    fun n hn => hwf _ n rfl hn
  intro a
  induction a using WellFoundedLT.induction with
  | ind a ih =>
    rintro n rfl hn
    obtain ⟨k, hle, e, hevent, hhelps⟩ := hfair n hn
    obtain hq | ⟨hk, hrank⟩ := hkeeps n k hle hn
    · exact hq
    obtain ⟨he, hok, hnext⟩ := r.next k e hevent
    obtain hq | ⟨hp, _, hlt⟩ := hstep _ e (r.reachable k) he hok hk
    · exact ⟨k + 1, by omega, hnext ▸ hq⟩
    · have hlower : rank (r.state (k + 1)) < rank (r.state n) :=
        hnext ▸ (hlt hhelps).trans_le hrank
      obtain ⟨l, hl, hq⟩ := ih _ hlower (k + 1) rfl (hnext ▸ hp)
      exact ⟨l, by omega, hq⟩

/-- Each party that can go on from some time on does: it never waits for ever beside the others. -/
def Just {ι : Type*} (r : Run m ok) (party : ε → Option ι) (able : σ → ι → Prop) : Prop :=
  ∀ i n, (∀ k, n ≤ k → able (r.state k) i) →
    ∃ k e, n ≤ k ∧ r.event k = some e ∧ party e = some i

/-- Where one party can go on, and keeps being the one until a step lowers the rank, as each step of
its own does, `P` leads to `Q`. -/
theorem Just.leadsTo {ι : Type*} {party : ε → Option ι} {able : σ → ι → Prop} {P Q : σ → Prop}
    (hjust : r.Just party able) (rank : σ → Nat) (helper : σ → ι)
    (hable : ∀ s, m.Reachable ok s → P s → able s (helper s))
    (hstep : ∀ s e, m.Reachable ok s → m.enabled s e → ok s e → P s →
      Q (m.step s e) ∨ P (m.step s e) ∧ (rank (m.step s e) < rank s ∨
        rank (m.step s e) ≤ rank s ∧ helper (m.step s e) = helper s ∧
          party e ≠ some (helper s))) :
    r.LeadsTo P Q := by
  suffices hwf : ∀ a n, rank (r.state n) = a → P (r.state n) → ∃ l, n ≤ l ∧ Q (r.state l) from
    fun n hn => hwf _ n rfl hn
  intro a
  induction a using Nat.strong_induction_on with
  | h a ih =>
    rintro n rfl hn
    by_contra hnone
    have hlow : ∀ k, n ≤ k → P (r.state k) → ¬ rank (r.state k) < rank (r.state n) := by
      intro k hk hp hlt
      obtain ⟨l, hl, hq⟩ := ih _ hlt k rfl hp
      exact hnone ⟨l, Nat.le_trans hk hl, hq⟩
    -- Until a step of the helper's, each step leaves it the helper.
    have hstays : ∀ k, n ≤ k → P (r.state k) ∧ rank (r.state k) ≤ rank (r.state n) ∧
        helper (r.state k) = helper (r.state n) := by
      intro k hk
      induction k, hk using Nat.le_induction with
      | base => exact ⟨hn, Nat.le_refl _, rfl⟩
      | succ k hk ih' =>
        obtain ⟨hp, hle, hhelper⟩ := ih'
        cases hevent : r.event k with
        | none =>
          rw [r.idle k hevent]
          exact ⟨hp, hle, hhelper⟩
        | some e =>
          obtain ⟨he, hok, hnext⟩ := r.next k e hevent
          have hlow := hlow (k + 1) (by omega)
          rw [hnext] at hlow ⊢
          rcases hstep _ e (r.reachable k) he hok hp with hq | ⟨hp', hlt | ⟨hle', hsame, _⟩⟩
          · exact absurd ⟨k + 1, by omega, hnext ▸ hq⟩ hnone
          · exact absurd (Nat.lt_of_lt_of_le hlt hle) (hlow hp')
          · exact ⟨hp', Nat.le_trans hle' hle, hsame.trans hhelper⟩
    have hables : ∀ k, n ≤ k → able (r.state k) (helper (r.state n)) := by
      intro k hk
      obtain ⟨hp, _, hhelper⟩ := hstays k hk
      rw [← hhelper]
      exact hable _ (r.reachable k) hp
    obtain ⟨k, e, hk, hevent, hparty⟩ := hjust _ n hables
    obtain ⟨hp, hle, hhelper⟩ := hstays k hk
    obtain ⟨he, hok, hnext⟩ := r.next k e hevent
    have hlow := hlow (k + 1) (by omega)
    rw [hnext] at hlow
    rcases hstep _ e (r.reachable k) he hok hp with hq | ⟨hp', hlt | ⟨_, _, hother⟩⟩
    · exact hnone ⟨k + 1, by omega, hnext ▸ hq⟩
    · exact hlow hp' (Nat.lt_of_lt_of_le hlt hle)
    · exact hother (hhelper ▸ hparty)

/-- A list of events, after which nothing more happens. -/
def ofFires {s : σ} {es : List ε} (hinit : m.init s) (hf : m.Fires ok s es) : Run m ok where
  state n := m.runs s (es.take n)
  event n := es[n]?
  init := hinit
  idle n h := by
    rw [List.take_add_one, h]
    simp
  next n e h := hf.getElem? h

theorem Just.ofFires {ι : Type*} {party : ε → Option ι} {able : σ → ι → Prop} {s : σ}
    {es : List ε} (hinit : m.init s) (hf : m.Fires ok s es)
    (hend : ∀ i, ¬ able (m.runs s es) i) : (Run.ofFires hinit hf).Just party able := by
  intro i n hable
  have hable := hable (max n es.length) (Nat.le_max_left _ _)
  have hstate : (Run.ofFires hinit hf).state (max n es.length) = m.runs s es := by
    change m.runs s (es.take _) = _
    rw [List.take_of_length_le (Nat.le_max_right _ _)]
  rw [hstate] at hable
  exact absurd hable (hend i)

end Run

end MakeBelieve.Library
