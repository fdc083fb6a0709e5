import Mathlib.Data.List.Basic
import Mathlib.Logic.Function.Basic
import Mathlib.Logic.Relation
import Mathlib.Order.FixedPoints
import Mathlib.Order.CompletePartialOrder
import MakeBelieve.Library.Count

namespace MakeBelieve.Library.Memo

open Relation

variable {α : Type*}

/-- One thing a node asks for: a fact of its own, or that another node holds and a fact besides. -/
inductive Cond (α : Type*)
  | own (b : Bool)
  | needs (x : α) (b : Bool)

/-- What has been found of a node so far. -/
inductive Verdict
  | checking
  | holds
  | stale
  deriving DecidableEq

abbrev Checked (α : Type*) := α → Option Verdict

/-- Goes through what a node asks for, up to the first thing it does not get. -/
def checkAll (visit : α → Checked α → Option (Bool × Checked α)) :
    List (Cond α) → Checked α → Option (Bool × Checked α)
  | [], c => some (true, c)
  | .own b :: conds, c => if b then checkAll visit conds c else some (false, c)
  | .needs x b :: conds, c =>
    match visit x c with
    | none => none
    | some (h, c) => if h && b then checkAll visit conds c else some (false, c)

/-- Whether a node holds, worked out once: `none` only if out of fuel. A node asked for while it is
itself being worked out does not hold. -/
def visit [DecidableEq α] (conds : α → List (Cond α)) : Nat → α → Checked α → Option (Bool × Checked α)
  | 0, _, _ => none
  | n + 1, a, c =>
    match c a with
    | some v => some (decide (v = .holds), c)
    | none =>
      match checkAll (visit conds n) (conds a) (Function.update c a (some .checking)) with
      | none => none
      | some (h, c) => some (h, Function.update c a (some (if h then .holds else .stale)))

/-- What a node asks for is granted from within a set of nodes. -/
def Granted (s : Set α) : Cond α → Prop
  | .own b => b = true
  | .needs x b => x ∈ s ∧ b = true

theorem Granted.mono {s t : Set α} (hst : s ⊆ t) {c : Cond α} (h : Granted s c) : Granted t c := by
  cases c with
  | own b => exact h
  | needs x b => exact ⟨hst h.1, h.2⟩

/-- The nodes that get all they ask for from within a set. -/
def step (conds : α → List (Cond α)) : Set α →o Set α where
  toFun s := { a | ∀ c ∈ conds a, Granted s c }
  monotone' _ _ hst _ ha c hc := (ha c hc).mono hst

/-- The least set whose nodes are those that get all they ask for from within it. -/
def least (conds : α → List (Cond α)) : Set α := OrderHom.lfp (step conds)

/-- `a` asks for `b`. -/
def Needs (conds : α → List (Cond α)) (a b : α) : Prop := ∃ f, Cond.needs b f ∈ conds a

variable {conds : α → List (Cond α)}

theorem mem_least {a : α} : a ∈ least conds ↔ ∀ c ∈ conds a, Granted (least conds) c := by
  have h : step conds (least conds) = least conds := OrderHom.map_lfp (step conds)
  constructor
  · intro ha
    rw [← h] at ha
    exact ha
  · intro ha
    rw [← h]
    exact ha

theorem least_subset {s : Set α} (h : ∀ a, (∀ c ∈ conds a, Granted s c) → a ∈ s) :
    least conds ⊆ s := OrderHom.lfp_le (step conds) h

theorem least_of_needs {a b : α} (ha : a ∈ least conds) (hab : Needs conds a b) :
    b ∈ least conds := by
  obtain ⟨f, hf⟩ := hab
  exact (mem_least.mp ha _ hf).1

/-- Nothing in the least set has an endless chain of needs. -/
theorem acc_of_least {a : α} (ha : a ∈ least conds) : Acc (fun x y => Needs conds y x) a := by
  have hle : least conds ⊆ { a | Acc (fun x y => Needs conds y x) a } := by
    apply least_subset
    intro a ha
    refine ⟨a, fun b hab => ?_⟩
    obtain ⟨f, hf⟩ := hab
    exact (ha _ hf).1
  exact hle ha

theorem not_rel_self_of_acc {r : α → α → Prop} {a : α} (h : Acc r a) : ¬r a a := by
  induction h with
  | intro a _ ih => exact fun hself => ih a hself hself

/-- A node on a cycle of needs is not in the least set. -/
theorem not_least_of_cycle {a : α} (hc : TransGen (Needs conds) a a) : a ∉ least conds := by
  intro ha
  have hacc : Acc (TransGen (Function.swap (Needs conds))) a := (acc_of_least ha).transGen
  exact not_rel_self_of_acc hacc (transGen_swap.mpr hc)

/-- Every verdict come to is right. -/
structure Good (conds : α → List (Cond α)) (c : Checked α) : Prop where
  holds : ∀ a, c a = some .holds → a ∈ least conds
  stale : ∀ a, c a = some .stale → a ∉ least conds

/-- What working out nodes leaves of the verdicts there were: all of them, and no other node still
being worked out. -/
structure Grows (c d : Checked α) : Prop where
  kept : ∀ a v, c a = some v → d a = some v
  checking : ∀ a, d a = some .checking → c a = some .checking

theorem Grows.refl (c : Checked α) : Grows c c := ⟨fun _ _ h => h, fun _ h => h⟩

theorem Grows.trans {c d e : Checked α} (h : Grows c d) (h' : Grows d e) : Grows c e :=
  ⟨fun a v ha => h'.kept a v (h.kept a v ha), fun a ha => h.checking a (h'.checking a ha)⟩

/-- How many of the nodes that ask for others have no verdict. -/
def unseen (nodes : List α) (c : Checked α) : Nat := nodes.countP fun a => (c a).isNone

theorem Grows.unseen_le {c d : Checked α} (h : Grows c d) (nodes : List α) :
    unseen nodes d ≤ unseen nodes c := by
  apply List.countP_mono_left
  intro a _ ha
  cases hc : c a with
  | none => rfl
  | some v =>
    rw [h.kept a v hc] at ha
    simp at ha

theorem unseen_update_lt [DecidableEq α] {nodes : List α} {c : Checked α} {a : α} (ha : a ∈ nodes)
    (hc : c a = none) (v : Verdict) :
    unseen nodes (Function.update c a (some v)) < unseen nodes c := by
  apply countP_lt ha
  · simp [hc]
  · simp
  · intro b _ hb
    by_cases hba : b = a
    · subst hba
      simp [hc]
    · rwa [Function.update_of_ne hba] at hb

/-- What one call of `visit` comes back with. -/
structure Visited (conds : α → List (Cond α)) (c d : Checked α) (h : Bool) (P : Prop) : Prop where
  verdict : h = true ↔ P
  good : Good conds d
  grows : Grows c d

/-- Going through conditions decides whether all are granted, where visiting a node they name
decides whether that node holds. -/
theorem checkAll_spec {visit : α → Checked α → Option (Bool × Checked α)} {cs : List (Cond α)}
    {c : Checked α} (hc : Good conds c)
    (hvisit : ∀ x f, Cond.needs x f ∈ cs → ∀ d, Grows c d → Good conds d →
      ∃ h e, visit x d = some (h, e) ∧ Visited conds d e h (x ∈ least conds)) :
    ∃ h d, checkAll visit cs c = some (h, d) ∧
      Visited conds c d h (∀ q ∈ cs, Granted (least conds) q) := by
  induction cs generalizing c with
  | nil => exact ⟨true, c, rfl, ⟨by simp, hc, .refl c⟩⟩
  | cons q cs ih =>
    have htail : ∀ d, Grows c d → Good conds d → ∃ h e, checkAll visit cs d = some (h, e) ∧
        Visited conds d e h (∀ q ∈ cs, Granted (least conds) q) := fun d hgrows hgood =>
      ih hgood fun x f hx e hde he =>
        hvisit x f (List.mem_cons_of_mem _ hx) e (hgrows.trans hde) he
    cases q with
    | own b =>
      cases b with
      | false => exact ⟨false, c, rfl, ⟨by simp [Granted], hc, .refl c⟩⟩
      | true =>
        obtain ⟨h, d, heq, hv⟩ := htail c (.refl c) hc
        refine ⟨h, d, heq, ⟨hv.verdict.trans ?_, hv.good, hv.grows⟩⟩
        simp [Granted]
    | needs x b =>
      obtain ⟨h, d, heq, hv⟩ := hvisit x b (by simp) c (.refl c) hc
      have hcheck : checkAll visit (.needs x b :: cs) c =
          if h && b then checkAll visit cs d else some (false, d) := by
        rw [checkAll, heq]
      rw [hcheck]
      by_cases hgranted : (h && b) = true
      · obtain ⟨h', e, heq', hv'⟩ := htail d hv.grows hv.good
        rw [if_pos hgranted]
        have hb : h = true ∧ b = true := by simpa using hgranted
        refine ⟨h', e, heq', ⟨hv'.verdict.trans ?_, hv'.good, hv.grows.trans hv'.grows⟩⟩
        simp [Granted, hv.verdict.mp hb.1, hb.2]
      · rw [if_neg hgranted]
        refine ⟨false, d, rfl, ⟨?_, hv.good, hv.grows⟩⟩
        have hnot : ¬Granted (least conds) (.needs x b) := by
          intro hg
          exact hgranted (by simp [hv.verdict.mpr hg.1, hg.2])
        simp [hnot]

/-- `visit` ends and is right, however the nodes' needs run in cycles: given fuel for every node
that asks for others and has no verdict, and with only nodes that lead to this one being worked
out. -/
theorem visit_spec [DecidableEq α] {nodes : List α} (hnodes : ∀ a, a ∉ nodes → ∀ b, ¬Needs conds a b) {n : Nat}
    {a : α} {c : Checked α} (hc : Good conds c)
    (hchecking : ∀ p, c p = some .checking → TransGen (Needs conds) p a)
    (hn : unseen nodes c < n) :
    ∃ h d, visit conds n a c = some (h, d) ∧ Visited conds c d h (a ∈ least conds) ∧
      (c a ≠ some .checking → d a = some (if h then .holds else .stale)) := by
  induction n generalizing a c with
  | zero => omega
  | succ n ih =>
    unfold visit
    cases hca : c a with
    | some v =>
      refine ⟨decide (v = .holds), c, rfl, ⟨?_, hc, .refl c⟩, fun hne => ?_⟩
      · cases v with
        | checking =>
          have hnot := not_least_of_cycle (hchecking a hca)
          simp [hnot]
        | holds => simp [hc.holds a hca]
        | stale => simp [hc.stale a hca]
      · rw [hca]
        cases v with
        | checking => exact absurd rfl hne
        | holds => rfl
        | stale => rfl
    | none =>
      let c1 := Function.update c a (some Verdict.checking)
      have hgood1 : Good conds c1 := by
        constructor
        · intro b hb
          by_cases hba : b = a
          · subst hba
            simp [c1] at hb
          · exact hc.holds b (by simpa [c1, hba] using hb)
        · intro b hb
          by_cases hba : b = a
          · subst hba
            simp [c1] at hb
          · exact hc.stale b (by simpa [c1, hba] using hb)
      have hself : c1 a = some .checking := Function.update_self ..
      -- Whatever is being worked out leads to `a`, and so to what `a` asks for.
      have hleads : ∀ x, Needs conds a x → ∀ d, Grows c1 d → ∀ p, d p = some .checking →
          TransGen (Needs conds) p x := by
        intro x hx d hd p hp
        have hp1 := hd.checking p hp
        by_cases hpa : p = a
        · subst hpa
          exact .single hx
        · have hcp : c p = some .checking := by simpa [c1, hpa] using hp1
          exact (hchecking p hcp).tail hx
      have hvisit : ∀ x f, Cond.needs x f ∈ conds a → ∀ d, Grows c1 d → Good conds d →
          ∃ h e, visit conds n x d = some (h, e) ∧ Visited conds d e h (x ∈ least conds) := by
        intro x f hx d hd hgood
        have hneeds : Needs conds a x := ⟨f, hx⟩
        have hmem : a ∈ nodes := by
          by_contra hnot
          exact hnodes a hnot x hneeds
        have hlt : unseen nodes c1 < unseen nodes c := unseen_update_lt hmem hca .checking
        have hle : unseen nodes d ≤ unseen nodes c1 := hd.unseen_le nodes
        have hn' : unseen nodes d < n := by omega
        obtain ⟨h, e, heq, hv, _⟩ := ih hgood (hleads x hneeds d hd) hn'
        exact ⟨h, e, heq, hv⟩
      obtain ⟨h, d, heq, hv⟩ := checkAll_spec hgood1 hvisit
      have hleast : h = true ↔ a ∈ least conds := by
        rw [hv.verdict, mem_least]
      have hda : d a = some .checking := hv.grows.kept a _ hself
      refine ⟨h, Function.update d a (some (if h then .holds else .stale)), ?_, ⟨hleast, ?_, ?_⟩,
        fun _ => Function.update_self ..⟩
      · show (match checkAll (visit conds n) (conds a) c1 with
          | none => none
          | some (h, c) => some (h, Function.update c a (some (if h then .holds else .stale)))) = _
        rw [heq]
      · constructor
        · intro b hb
          by_cases hba : b = a
          · subst hba
            cases h with
            | true => exact hleast.mp rfl
            | false => simp at hb
          · exact hv.good.holds b (by simpa [hba] using hb)
        · intro b hb
          by_cases hba : b = a
          · subst hba
            cases h with
            | true => simp at hb
            | false => exact fun hmem => by simpa using hleast.mpr hmem
          · exact hv.good.stale b (by simpa [hba] using hb)
      · constructor
        · intro b v hb
          have hba : b ≠ a := fun hba => by
            rw [hba, hca] at hb
            simp at hb
          rw [Function.update_of_ne hba]
          exact hv.grows.kept b v (by simpa [c1, hba] using hb)
        · intro b hb
          by_cases hba : b = a
          · subst hba
            cases h <;> simp at hb
          · have hb' : d b = some .checking := by simpa [hba] using hb
            have := hv.grows.checking b hb'
            simpa [c1, hba] using this

end MakeBelieve.Library.Memo
