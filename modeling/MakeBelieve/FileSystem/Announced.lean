import Mathlib.Data.List.Dedup
import Mathlib.Data.Prod.Lex
import Mathlib.Tactic.IntervalCases
import MakeBelieve.FileSystem.Notify

namespace MakeBelieve.FileSystem

open Library
open MakeBelieve.Snapshots (DirectoryTreeDiff Numbered)

variable {s s' : State} {e : Event}

/-! ### What is queued -/

theorem mem_mergeChange {into : Changes} {change : Path × ChangeKind} {path : Path} :
    path ∈ (mergeChange into change).map Prod.fst ↔
      path ∈ into.map Prod.fst ∨ path = change.1 := by
  unfold mergeChange
  split
  · next hany =>
    have hsame : (into.map fun other =>
        if other.1 = change.1 && change.2 = .added then (other.1, ChangeKind.added)
          else other).map Prod.fst = into.map Prod.fst := by
      rw [List.map_map]
      refine List.map_congr_left fun other _ => ?_
      dsimp only [Function.comp_apply]
      split <;> rfl
    obtain ⟨other, hmem, heq⟩ := List.any_eq_true.mp hany
    rw [hsame]
    refine ⟨.inl, fun h => h.elim id fun hpath => ?_⟩
    rw [hpath, ← of_decide_eq_true heq]
    exact List.mem_map_of_mem hmem
  · simp

theorem mem_mergeChanges {into changes : Changes} {path : Path} :
    path ∈ (mergeChanges into changes).map Prod.fst ↔
      path ∈ into.map Prod.fst ∨ path ∈ changes.map Prod.fst := by
  unfold mergeChanges
  induction changes generalizing into with
  | nil => simp
  | cons change changes ih =>
    rw [List.foldl_cons, ih, mem_mergeChange, List.map_cons, List.mem_cons, or_assoc]

theorem mem_changesOf {diff : DirectoryTreeDiff} {path : Path} :
    path ∈ (changesOf diff).map Prod.fst ↔ path ∈ diff.entriesChanged := by
  simp [changesOf, List.mem_dedup]

/-! ### What is on its way to be announced -/

/-- The announcement of all there is of a path is queued, or a pass is at it. -/
def Covered (s : State) (path : Path) : Prop :=
  path ∈ s.pending.map Prod.fst ∨ s.everythingDirty = true ∨
    (∃ a ∈ s.pass.batch, a.path = path ∧ s.snapshots.generation path ≤ a.generation) ∨
    ∃ everything, s.pass.everything = some everything ∧
      s.snapshots.generation path ≤ everything

structure Announced (s : State) : Prop where
  numbered : Numbered s.snapshots
  covered : s.stopping = false → ∀ path, s.announced path < s.snapshots.generation path →
    Covered s path
  held : ∀ held ∈ s.heldOpens, s.announced held.path < held.generation ∧
    held.generation ≤ s.snapshots.generation held.path
  told : ∀ open' ∈ s.pass.ready ++ s.leaving,
    s.stopping = true ∨ open'.generation ≤ s.announced open'.path
  conserved : (s.heldOpens ++ s.pass.ready ++ s.leaving ++ s.replied).Perm s.given
  numbers : s.given.map HeldOpen.number = List.range s.given.length
  uniform : ∀ a ∈ s.pass.batch, ∀ b ∈ s.pass.batch, a.path = b.path → a.generation = b.generation

/-- A pass that is started has nothing yet to announce. -/
theorem startNotifying_spec (s : State) :
    s.startNotifying = { s with pass := s.startNotifying.pass } ∧
    s.startNotifying.pass.ready = s.pass.ready ∧ s.startNotifying.pass.batch = s.pass.batch ∧
    s.startNotifying.pass.everything = s.pass.everything ∧
    (s.pass ≠ .idle ∨ s.stopping = false → s.startNotifying.pass ≠ .idle) := by
  obtain ⟨_, _, _, stopping, _, _, _, pass, _, _, _⟩ := s
  cases pass with
  | idle =>
    cases stopping <;>
      simp [State.startNotifying, Pass.ready, Pass.batch, Pass.everything]
  | announcing => simp [State.startNotifying]
  | looping => simp [State.startNotifying]

theorem Announced.startNotifying (h : Announced s) : Announced s.startNotifying := by
  obtain ⟨heq, hready, hbatch, heverything, _⟩ := startNotifying_spec s
  rw [heq]
  refine ⟨h.numbered, fun hstop path hlt => ?_, h.held, ?_, ?_, h.numbers, ?_⟩
  · have hcovered := h.covered hstop path hlt
    unfold Covered at hcovered ⊢
    rwa [hbatch, heverything]
  · rw [hready]
    exact h.told
  · rw [hready]
    exact h.conserved
  · rw [hbatch]
    exact h.uniform

theorem Announced.treeChanged (h : Announced s) (diff : DirectoryTreeDiff) :
    Announced (s.onTreeChanged diff) := by
  have hnumbered : Numbered (s.snapshots.changed diff) := h.numbered.step (.report diff)
  obtain ⟨_, hgrows⟩ := Snapshots.changed_generation h.numbered.clocked diff
  have hheld : ∀ held ∈ s.heldOpens, s.announced held.path < held.generation ∧
      held.generation ≤ (s.snapshots.changed diff).generation held.path := fun held hmem =>
    ⟨(h.held held hmem).1, Nat.le_trans (h.held held hmem).2 (hgrows _).1⟩
  unfold State.onTreeChanged
  dsimp only
  split
  · next hstop =>
    exact ⟨hnumbered, fun hnot => absurd (hnot.symm.trans hstop) (by simp), hheld, h.told,
      h.conserved, h.numbers, h.uniform⟩
  · next hstop =>
    split
    · exact Announced.startNotifying ⟨hnumbered, fun _ _ _ => .inr (.inl rfl), hheld,
        h.told, h.conserved, h.numbers, h.uniform⟩
    · next hdirty =>
      refine Announced.startNotifying ⟨hnumbered, fun _ path hlt => ?_, hheld, h.told,
        h.conserved, h.numbers, h.uniform⟩
      unfold Covered
      rw [mem_mergeChanges, mem_changesOf]
      by_cases hnamed : path ∈ diff.entriesChanged
      · exact .inl (.inr hnamed)
      · have hsame := Snapshots.changed_generation_of_not h.numbered.clocked
          (by simpa using hdirty) hnamed
        dsimp only at hlt ⊢
        rw [hsame] at hlt ⊢
        exact (h.covered (by simpa using hstop) path hlt).imp .inl id

theorem Announced.replyWhenAnnounced (h : Announced s) {path : Path} {generation : Nat}
    (hgeneration : generation ≤ s.snapshots.generation path) :
    Announced (s.replyWhenAnnounced path generation) := by
  have hnumbers : (s.given ++ [(⟨s.given.length, path, generation⟩ : HeldOpen)]).map
      HeldOpen.number = List.range (s.given ++
        [(⟨s.given.length, path, generation⟩ : HeldOpen)]).length := by
    rw [List.map_append, h.numbers, List.length_append, List.length_singleton, List.range_succ]
    rfl
  unfold State.replyWhenAnnounced
  dsimp only
  split
  · next hwaits =>
    refine Announced.startNotifying ⟨h.numbered, h.covered, fun held hmem => ?_, h.told, ?_, hnumbers,
      h.uniform⟩
    · rw [List.mem_append, List.mem_singleton] at hmem
      obtain hmem | rfl := hmem
      · exact h.held held hmem
      · exact ⟨hwaits.2, hgeneration⟩
    · refine List.Perm.trans ?_ (h.conserved.append_right _)
      simp only [List.append_assoc]
      refine List.Perm.append_left _ ?_
      exact List.perm_append_comm.trans (by simp only [List.append_assoc]; rfl)
  · next hnot =>
    refine ⟨h.numbered, h.covered, h.held, ?_, ?_, hnumbers, h.uniform⟩
    · intro open' hmem
      rw [List.mem_append, List.mem_append, List.mem_singleton] at hmem
      obtain hmem | hmem | rfl := hmem
      · exact h.told open' (List.mem_append_left _ hmem)
      · exact h.told open' (List.mem_append_right _ hmem)
      · by_cases hstop : s.stopping = true
        · exact .inl hstop
        · have hle : ¬s.announced path < generation := fun hlt => hnot ⟨by simpa using hstop, hlt⟩
          exact .inr (Nat.le_of_not_lt hle)
    · refine List.Perm.trans ?_ (h.conserved.append_right _)
      simp only [List.append_assoc]
      exact (((List.perm_append_comm).append_left _).append_left _).append_left _

/-! ### What a pass does -/

/-- Marking a path, or everything, announced takes out the held opens that waited for that. -/
theorem markAnnounced_spec (s : State) (path : Option Path) (generation : Nat) :
    let t := (s.markAnnounced path generation).1
    let ready := (s.markAnnounced path generation).2
    t = { s with
      announcedPaths := t.announcedPaths
      announcedEverything := t.announcedEverything
      heldOpens := t.heldOpens } ∧
    (∀ other, s.announced other ≤ t.announced other) ∧
    (∀ other, path = some other ∨ path = none → generation ≤ t.announced other) ∧
    (∀ held ∈ t.heldOpens, held ∈ s.heldOpens ∧ t.announced held.path < held.generation) ∧
    (∀ held ∈ ready, held ∈ s.heldOpens ∧ held.generation ≤ t.announced held.path) ∧
    (t.heldOpens ++ ready).Perm s.heldOpens := by
  have hsplit : ∀ t : State,
      (∀ held ∈ t.split.2, held ∈ t.heldOpens ∧ t.announced held.path < held.generation) ∧
      (∀ held ∈ t.split.1, held ∈ t.heldOpens ∧ held.generation ≤ t.announced held.path) ∧
      (t.split.2 ++ t.split.1).Perm t.heldOpens := by
    intro t
    refine ⟨fun held hmem => by simpa [State.split] using hmem,
      fun held hmem => by simpa [State.split] using hmem, ?_⟩
    have hsame : t.split.2 = t.heldOpens.filter fun held =>
        !decide (held.generation ≤ t.announced held.path) :=
      List.filter_congr fun held _ => by
        rw [← decide_not]
        exact decide_eq_decide.mpr Nat.not_le.symm
    rw [hsame]
    exact List.perm_append_comm.trans (List.filter_append_perm _ _)
  cases path with
  | some path =>
    refine ⟨rfl, fun other => ?_, fun other hother => ?_, hsplit _⟩
    · by_cases heq : other = path
      · subst heq
        simp only [State.markAnnounced, State.announced, Function.update_self, Option.getD_some]
        omega
      · simp [State.markAnnounced, State.announced, Function.update_of_ne heq]
    · obtain heq | hnone := hother
      · obtain rfl := Option.some.inj heq
        simp only [State.markAnnounced, State.announced, Function.update_self, Option.getD_some]
        omega
      · simp at hnone
  | none =>
    refine ⟨rfl, fun other => ?_, fun other _ => ?_, hsplit _⟩
    · simp only [State.markAnnounced, State.announced]
      omega
    · simp only [State.markAnnounced, State.announced]
      omega

/-- A pass that has nothing left to reply to marks something announced, and goes on with what that
does not cover. -/
theorem Announced.mark (h : Announced s) (hready : s.pass.ready = []) (path : Option Path)
    (generation : Nat) {pass : Pass} (hpass : pass.ready = (s.markAnnounced path generation).2)
    (hcovered : ∀ other, Covered s other →
      (path = some other ∨ path = none → generation < s.snapshots.generation other) →
      Covered { s with pass } other)
    (huniform : ∀ a ∈ pass.batch, ∀ b ∈ pass.batch, a.path = b.path → a.generation = b.generation) :
    Announced { (s.markAnnounced path generation).1 with pass } := by
  obtain ⟨heq, hgrows, hmarks, hheld, htaken, hperm⟩ := markAnnounced_spec s path generation
  rw [← hpass] at htaken hperm
  generalize (s.markAnnounced path generation).1 = t at heq hgrows hmarks hheld htaken hperm
  have hfields : t.snapshots = s.snapshots ∧ t.pending = s.pending ∧
      t.everythingDirty = s.everythingDirty ∧ t.stopping = s.stopping ∧ t.leaving = s.leaving ∧
      t.given = s.given ∧ t.replied = s.replied := by
    rw [heq]
    exact ⟨rfl, rfl, rfl, rfl, rfl, rfl, rfl⟩
  obtain ⟨hsnapshots, hpending, hdirty, hstopping, hleaving, hgiven, hreplied⟩ := hfields
  refine ⟨hsnapshots ▸ h.numbered, fun hstop other hlt => ?_, fun held hmem => ?_, fun o hmem => ?_,
    ?_, ?_, huniform⟩
  · have hlt : t.announced other < t.snapshots.generation other := hlt
    rw [hsnapshots] at hlt
    have hbefore := h.covered (hstopping ▸ hstop) other (Nat.lt_of_le_of_lt (hgrows other) hlt)
    have hafter := hcovered other hbefore fun hmarked =>
      Nat.lt_of_le_of_lt (hmarks other hmarked) hlt
    unfold Covered at hafter ⊢
    rw [hsnapshots, hpending, hdirty]
    exact hafter
  · have hgeneration := (h.held held (hheld held hmem).1).2
    rw [← hsnapshots] at hgeneration
    exact ⟨(hheld held hmem).2, hgeneration⟩
  · show t.stopping = true ∨ o.generation ≤ t.announced o.path
    obtain hmem | hmem := List.mem_append.mp hmem
    · exact .inr (htaken o hmem).2
    · have hmem : o ∈ t.leaving := hmem
      rw [hstopping]
      rw [hleaving] at hmem
      exact (h.told o (List.mem_append_right _ hmem)).imp id fun hle => Nat.le_trans hle (hgrows _)
  · show (t.heldOpens ++ pass.ready ++ t.leaving ++ t.replied).Perm t.given
    rw [hleaving, hreplied, hgiven]
    have hconserved := h.conserved
    rw [hready, List.append_nil] at hconserved
    exact ((hperm.append_right _).append_right _).trans hconserved
  · show t.given.map HeldOpen.number = List.range t.given.length
    rw [hgiven]
    exact h.numbers

theorem Announced.announce (h : Announced s) {batch : List Announcement} {everything : Option Nat}
    (hpass : s.pass = .announcing [] batch everything) {a : Announcement} (ha : a ∈ batch) :
    Announced (s.announce a batch everything) := by
  have huniform := h.uniform
  rw [hpass] at huniform
  refine h.mark (by rw [hpass]; rfl) (some a.path) a.generation rfl ?_ fun b hb c hc =>
    huniform b (List.mem_filter.mp hb).1 c (List.mem_filter.mp hc).1
  intro other hcovered hmarked
  unfold Covered at hcovered ⊢
  rw [hpass] at hcovered
  obtain hin | hin | ⟨b, hb, rfl, hle⟩ | hin := hcovered
  · exact .inl hin
  · exact .inr (.inl hin)
  · refine .inr (.inr (.inl ⟨b, List.mem_filter.mpr ⟨hb, ?_⟩, rfl, hle⟩))
    have hne : b.path ≠ a.path := by
      intro hsame
      have hlt := hmarked (.inl (by rw [hsame]))
      have hgeneration := huniform b hb a ha hsame
      omega
    simpa using hne
  · exact .inr (.inr (.inr hin))

theorem Announced.announceEverything (h : Announced s) {everything : Nat}
    (hpass : s.pass = .announcing [] [] (some everything)) :
    Announced (s.announceEverything everything) := by
  refine h.mark (by rw [hpass]; rfl) none everything rfl ?_ (by simp [Pass.batch])
  intro other hcovered hmarked
  unfold Covered at hcovered ⊢
  rw [hpass] at hcovered
  obtain hin | hin | ⟨b, hb, _⟩ | ⟨_, hin, hle⟩ := hcovered
  · exact .inl hin
  · exact .inr (.inl hin)
  · simp [Pass.batch] at hb
  · obtain rfl := Option.some.inj hin
    have hlt := hmarked (.inr rfl)
    omega

/-- A pass between two batches. -/
def Looking (s : State) : Prop := s.pass = .looping [] ∨ s.pass = .announcing [] [] none

theorem Looking.pass (h : Looking s) :
    s.pass.ready = [] ∧ s.pass.batch = [] ∧ s.pass.everything = none ∧ s.pass ≠ .idle := by
  obtain h | h := h
  · rw [h]
    exact ⟨rfl, rfl, rfl, Pass.noConfusion⟩
  · rw [h]
    exact ⟨rfl, rfl, rfl, Pass.noConfusion⟩

theorem Looking.covered (h : Looking s) {path : Path} (hcovered : Covered s path) :
    path ∈ s.pending.map Prod.fst ∨ s.everythingDirty = true := by
  obtain ⟨_, hbatch, heverything, _⟩ := h.pass
  unfold Covered at hcovered
  rw [hbatch, heverything] at hcovered
  simpa using hcovered

/-- A pass that finds nothing queued has nothing held either. -/
theorem Announced.nothingHeld (h : Announced s) (hlooking : Looking s) (hstop : s.stopping = false)
    (hdirty : s.everythingDirty = false) (hpending : s.pending = []) : s.heldOpens = [] := by
  refine List.eq_nil_iff_forall_not_mem.mpr fun held hmem => ?_
  obtain ⟨hlt, hle⟩ := h.held held hmem
  have hcovered := hlooking.covered (h.covered hstop held.path (Nat.lt_of_lt_of_le hlt hle))
  simp [hdirty, hpending] at hcovered

theorem Announced.proceed (h : Announced s) (hlooking : Looking s) (known : List Path) :
    Announced (s.proceed known) := by
  obtain ⟨hready, _, _, _⟩ := hlooking.pass
  have hconserved := h.conserved
  have htold := h.told
  rw [hready] at hconserved htold
  have huniform : ∀ changes : Changes, ∀ a ∈ changes.map fun change =>
      s.announcement change.1 change.2, ∀ b ∈ changes.map fun change =>
      s.announcement change.1 change.2, a.path = b.path → a.generation = b.generation := by
    intro changes a ha b hb heq
    obtain ⟨change, _, rfl⟩ := List.mem_map.mp ha
    obtain ⟨change', _, rfl⟩ := List.mem_map.mp hb
    exact congrArg s.snapshots.generation heq
  unfold State.proceed
  split
  · next hgoes =>
    split
    · refine ⟨h.numbered, fun _ path _ => ?_, h.held, htold, hconserved, h.numbers, ?_⟩
      · exact .inr (.inr (.inr ⟨_, rfl, h.numbered.clocked path⟩))
      · intro a ha b hb heq
        obtain ⟨path, _, rfl⟩ := List.mem_map.mp ha
        obtain ⟨path', _, rfl⟩ := List.mem_map.mp hb
        exact congrArg s.snapshots.generation heq
    · next hdirty =>
      refine ⟨h.numbered, fun _ path hlt => ?_, h.held, htold, hconserved, h.numbers, huniform _⟩
      have hqueued := (hlooking.covered (h.covered hgoes.1 path hlt)).resolve_right hdirty
      obtain ⟨change, hmem, rfl⟩ := List.mem_map.mp hqueued
      exact .inr (.inr (.inl ⟨_, List.mem_map_of_mem hmem, rfl, Nat.le_refl _⟩))
  · next hends =>
    refine ⟨h.numbered, fun hstop path hlt => ?_, by simp, fun o hmem => ?_, ?_, h.numbers,
      by simp [Pass.batch]⟩
    · have hqueued := hlooking.covered (h.covered hstop path hlt)
      refine absurd ⟨hstop, ?_⟩ hends
      exact hqueued.symm.imp id fun hin hnil => by simp [hnil] at hin
    · have hmem : o ∈ s.leaving ++ s.heldOpens := hmem
      obtain hmem | hmem := List.mem_append.mp hmem
      · exact htold o (List.mem_append_right _ hmem)
      · by_cases hstop : s.stopping = true
        · exact .inl hstop
        · have hstop : s.stopping = false := by simpa using hstop
          have hnot : s.everythingDirty = false ∧ s.pending = [] := by simpa [hstop] using hends
          rw [h.nothingHeld hlooking hstop hnot.1 hnot.2] at hmem
          simp at hmem
    · show (s.leaving ++ s.heldOpens ++ s.replied).Perm s.given
      rw [List.append_nil] at hconserved
      exact (List.perm_append_comm.append_right _).trans hconserved

theorem Announced.reply (h : Announced s) : Announced s.reply := by
  have hconserved := h.conserved
  have htold := h.told
  have hmoves : ∀ {ready : HeldOpen} {rest : List HeldOpen}, s.pass.ready = ready :: rest →
      (∀ o ∈ rest ++ s.leaving, s.stopping = true ∨ o.generation ≤ s.announced o.path) ∧
      (s.heldOpens ++ rest ++ s.leaving ++ (s.replied ++ [ready])).Perm s.given := by
    intro ready rest hready
    rw [hready] at hconserved htold
    refine ⟨fun o hmem => htold o (List.mem_cons_of_mem _ hmem), List.Perm.trans ?_ hconserved⟩
    simp only [List.append_assoc, List.cons_append]
    refine List.Perm.append_left _ ?_
    rw [← List.append_assoc, ← List.append_assoc]
    exact List.perm_append_comm.trans (by simp)
  unfold State.reply
  split
  · next ready rest batch everything hpass =>
    obtain ⟨htold, hconserved⟩ := hmoves (by rw [hpass]; rfl)
    have hcovered := h.covered
    have huniform := h.uniform
    unfold Covered at hcovered
    rw [hpass] at hcovered huniform
    exact ⟨h.numbered, hcovered, h.held, htold, hconserved, h.numbers, huniform⟩
  · next ready rest hpass =>
    obtain ⟨htold, hconserved⟩ := hmoves (by rw [hpass]; rfl)
    have hcovered := h.covered
    unfold Covered at hcovered
    rw [hpass] at hcovered
    exact ⟨h.numbered, hcovered, h.held, htold, hconserved, h.numbers, by simp [Pass.batch]⟩
  · exact h

theorem Announced.replyLeaving (h : Announced s) (number : Nat) :
    Announced (s.replyLeaving number) := by
  refine ⟨h.numbered, h.covered, h.held, fun o hmem => ?_, ?_, h.numbers, h.uniform⟩
  · obtain hmem | hmem := List.mem_append.mp hmem
    · exact h.told o (List.mem_append_left _ hmem)
    · exact h.told o (List.mem_append_right _ (List.mem_filter.mp hmem).1)
  · refine List.Perm.trans ?_ h.conserved
    show (s.heldOpens ++ s.pass.ready ++ s.leaving.filter _ ++ (s.replied ++ s.leaving.filter _)).Perm _
    simp only [List.append_assoc]
    refine List.Perm.append_left _ (List.Perm.append_left _ ?_)
    have hsame : (s.leaving.filter fun held => decide (held.number ≠ number)) =
        s.leaving.filter fun held => !decide (held.number = number) :=
      List.filter_congr fun held _ => decide_not
    have hparts := List.filter_append_perm (fun held : HeldOpen => held.number = number) s.leaving
    rw [hsame]
    refine (List.perm_append_comm.append_left _).trans ?_
    rw [← List.append_assoc]
    exact (List.perm_append_comm.trans hparts).append_right _

/-! ### Runs -/

/-- Whatever is held, a pass is under way. -/
def UnderWay (s : State) : Prop := s.heldOpens ≠ [] → s.pass ≠ .idle

theorem UnderWay.startNotifying (h : s.heldOpens ≠ [] → s.pass ≠ .idle ∨ s.stopping = false) :
    UnderWay s.startNotifying := by
  obtain ⟨heq, _, _, _, hpass⟩ := startNotifying_spec s
  rw [heq]
  exact fun hheld => hpass (h hheld)

theorem UnderWay.step (h : UnderWay s) (he : s.enabled e) : UnderWay (s.step e) := by
  cases e with
  | treeChanged diff =>
    show UnderWay (s.onTreeChanged diff)
    unfold State.onTreeChanged
    dsimp only
    split
    · exact h
    · split
      · exact UnderWay.startNotifying fun hheld => .inl (h hheld)
      · exact UnderWay.startNotifying fun hheld => .inl (h hheld)
  | replyWhenAnnounced snapshot =>
    obtain ⟨taken, htaken⟩ := he
    unfold State.step
    dsimp only
    rw [htaken]
    dsimp only
    unfold State.replyWhenAnnounced
    dsimp only
    split
    · next hwaits => exact UnderWay.startNotifying fun _ => .inr hwaits.1
    · exact h
  | proceed known =>
    show UnderWay (s.proceed known)
    unfold State.proceed
    split
    · split
      · exact fun _ => Pass.noConfusion
      · exact fun _ => Pass.noConfusion
    · exact fun hheld => absurd rfl hheld
  | announce a =>
    obtain ⟨batch, everything, hpass, _⟩ := he
    unfold State.step
    dsimp only
    rw [hpass]
    exact fun _ => Pass.noConfusion
  | announceEverything =>
    obtain ⟨everything, hpass⟩ := he
    unfold State.step
    dsimp only
    rw [hpass]
    exact fun _ => Pass.noConfusion
  | reply =>
    show UnderWay s.reply
    unfold State.reply
    split
    · exact fun _ => Pass.noConfusion
    · exact fun _ => Pass.noConfusion
    · exact h
  | replyHeld => exact fun hheld => absurd rfl hheld
  | _ => exact h

theorem Announced.step (h : Announced s) (he : s.enabled e) : Announced (s.step e) := by
  cases e with
  | snapshots e =>
    obtain ⟨he, hreport⟩ := he
    have hs := Snapshots.State.stepped he
    obtain ⟨hgeneration, _⟩ := hs.clock hreport
    refine ⟨h.numbered.step hs, fun hstop path hlt => ?_, fun held hmem => ?_, h.told, h.conserved,
      h.numbers, h.uniform⟩
    · have hlt : s.announced path < (s.snapshots.step e).generation path := hlt
      rw [hgeneration] at hlt
      have hcovered := h.covered hstop path hlt
      unfold Covered at hcovered ⊢
      show _ ∨ _ ∨ (∃ a ∈ s.pass.batch, a.path = path ∧
        (s.snapshots.step e).generation path ≤ a.generation) ∨
        ∃ everything, s.pass.everything = some everything ∧
          (s.snapshots.step e).generation path ≤ everything
      rw [hgeneration]
      exact hcovered
    · show _ ∧ held.generation ≤ (s.snapshots.step e).generation held.path
      rw [hgeneration]
      exact h.held held hmem
  | treeChanged diff => exact h.treeChanged diff
  | replyWhenAnnounced snapshot =>
    obtain ⟨taken, htaken⟩ := he
    unfold State.step
    dsimp only
    rw [htaken]
    exact h.replyWhenAnnounced (h.numbered.snapshots taken (List.mem_of_getElem? htaken))
  | proceed known => exact h.proceed he.1 known
  | announce a =>
    obtain ⟨batch, everything, hpass, ha⟩ := he
    have hannounce := h.announce hpass ha
    unfold State.step
    dsimp only
    rw [hpass]
    exact hannounce
  | announceEverything =>
    obtain ⟨everything, hpass⟩ := he
    have hannounce := h.announceEverything hpass
    unfold State.step
    dsimp only
    rw [hpass]
    exact hannounce
  | reply => exact h.reply
  | replyLeaving number => exact h.replyLeaving number
  | stop => exact ⟨h.numbered, fun hstop => absurd hstop (by simp [State.step]), h.held,
      fun _ _ => .inl rfl, h.conserved, h.numbers, h.uniform⟩
  | replyHeld =>
    obtain ⟨hstop, hidle⟩ := he
    refine ⟨h.numbered, fun hnot => ?_, by simp [State.step], fun _ _ => .inl hstop, ?_, h.numbers,
      h.uniform⟩
    · have hnot : s.stopping = false := hnot
      simp [hstop] at hnot
    · have hconserved := h.conserved
      rw [hidle] at hconserved
      show (s.pass.ready ++ (s.leaving ++ s.heldOpens) ++ s.replied).Perm s.given
      rw [hidle]
      refine List.Perm.trans ?_ hconserved
      simp only [Pass.ready, List.nil_append, List.append_nil]
      exact List.perm_append_comm.append_right _

theorem announced {ok : State → Event → Prop} (h : machine.Reachable ok s) :
    Announced s ∧ UnderWay s := by
  refine h.invariant (P := fun s => Announced s ∧ UnderWay s) (fun s hs => ?_)
    fun s e hk he _ => ⟨hk.1.step he, hk.2.step he⟩
  obtain ⟨snapshots, hinit, rfl⟩ := hs
  have hnumbered : Numbered snapshots :=
    @Snapshots.numbered _ (fun _ _ => True) (.start hinit)
  obtain ⟨entries, rfl⟩ := hinit
  refine ⟨⟨hnumbered, fun _ path hlt => ?_, by simp, by simp [Pass.ready], by simp [Pass.ready],
    by simp, by simp [Pass.batch]⟩, fun hheld => absurd rfl hheld⟩
  simp [State.announced, Snapshots.State.generation] at hlt

/-! ### Every open is replied to -/

/-- Whether a pass is on its way to announce what an open waits for. -/
def Pass.reaches (pass : Pass) (held : HeldOpen) : Bool :=
  (pass.batch.any fun a => a.path = held.path && decide (held.generation ≤ a.generation)) ||
    pass.everything.any fun everything => decide (held.generation ≤ everything)

/-- How many announcements a pass has before it looks for more. -/
def Pass.left : Pass → Nat
  | .announcing _ batch everything => 1 + batch.length + everything.toList.length
  | _ => 0

/-- How far a held open is from being let go: whether that takes a batch more, what is left of this
one, and the opens to reply to before it goes on. -/
def rank (held : HeldOpen) (s : State) : Nat ×ₗ Nat ×ₗ Nat :=
  toLex (if s.pass.reaches held then 0 else 1, toLex (s.pass.left, s.pass.ready.length))

theorem rank_lt {held : HeldOpen}
    (hreaches : s.pass.reaches held = true → s'.pass.reaches held = true)
    (hleft : s'.pass.left < s.pass.left ∨
      s'.pass.left = s.pass.left ∧ s'.pass.ready.length < s.pass.ready.length) :
    rank held s' < rank held s := by
  unfold rank
  rw [Prod.Lex.toLex_lt_toLex, Prod.Lex.toLex_lt_toLex]
  by_cases hafter : s'.pass.reaches held = true
  · rw [if_pos hafter]
    by_cases hbefore : s.pass.reaches held = true
    · rw [if_pos hbefore]
      exact .inr ⟨rfl, hleft⟩
    · rw [if_neg hbefore]
      exact .inl Nat.one_pos
  · rw [if_neg hafter, if_neg fun hbefore => hafter (hreaches hbefore)]
    exact .inr ⟨rfl, hleft⟩

/-- What a pass does. -/
def Event.ofPass : Event → Prop
  | .proceed _ | .announce _ | .announceEverything | .reply => True
  | _ => False

/-- Let go: taken out of the held opens, to be replied to. -/
def LetGo (held : HeldOpen) (s : State) : Prop := held ∈ s.pass.ready ∨ held ∈ s.leaving

theorem startNotifying_underWay (h : s.pass ≠ .idle) : s.startNotifying = s := by
  unfold State.startNotifying
  split
  · next hidle => exact absurd hidle h
  · rfl

/-- An event outside the pass leaves a pass under way, and what is held or leaving. -/
theorem step_others (held : HeldOpen) (hpass : s.pass ≠ .idle) (he : s.enabled e)
    (hnot : ¬e.ofPass) :
    (s.step e).pass = s.pass ∧ (held ∈ s.heldOpens → held ∈ (s.step e).heldOpens) := by
  cases e with
  | treeChanged diff =>
    show (s.onTreeChanged diff).pass = s.pass ∧
      (held ∈ s.heldOpens → held ∈ (s.onTreeChanged diff).heldOpens)
    unfold State.onTreeChanged
    dsimp only
    split
    · exact ⟨rfl, id⟩
    · split
      · rw [startNotifying_underWay]
        · exact ⟨rfl, id⟩
        · exact hpass
      · rw [startNotifying_underWay]
        · exact ⟨rfl, id⟩
        · exact hpass
  | replyWhenAnnounced snapshot =>
    obtain ⟨taken, htaken⟩ := he
    unfold State.step
    dsimp only
    rw [htaken]
    dsimp only
    unfold State.replyWhenAnnounced
    dsimp only
    split
    · rw [startNotifying_underWay]
      · exact ⟨rfl, List.mem_append_left _⟩
      · exact hpass
    · exact ⟨rfl, id⟩
  | replyHeld => exact absurd he.2 hpass
  | proceed => exact absurd trivial hnot
  | announce => exact absurd trivial hnot
  | announceEverything => exact absurd trivial hnot
  | reply => exact absurd trivial hnot
  | _ => exact ⟨rfl, id⟩

/-- Of the held opens those that what is marked lets go are ready, and the others stay. -/
theorem mem_markAnnounced {held : HeldOpen} (h : held ∈ s.heldOpens) (path : Option Path)
    (generation : Nat) :
    held ∈ (s.markAnnounced path generation).2 ∨
      held ∈ (s.markAnnounced path generation).1.heldOpens ∧
        (path = some held.path ∨ path = none → generation < held.generation) := by
  obtain ⟨_, _, hmarks, hheld, _, hperm⟩ := markAnnounced_spec s path generation
  obtain hstays | hready := List.mem_append.mp (hperm.mem_iff.mpr h)
  · exact .inr ⟨hstays, fun hmarked =>
      Nat.lt_of_le_of_lt (hmarks held.path hmarked) (hheld held hstays).2⟩
  · exact .inl hready

theorem Pass.reaches_iff {pass : Pass} {held : HeldOpen} :
    pass.reaches held = true ↔
      (∃ a ∈ pass.batch, a.path = held.path ∧ held.generation ≤ a.generation) ∨
      ∃ everything, pass.everything = some everything ∧ held.generation ≤ everything := by
  cases heverything : pass.everything <;> simp [Pass.reaches, heverything]

/-- A pass that looks for more takes what every held open waits for, or lets them all go. -/
theorem Announced.proceed_rank (h : Announced s) (hlooking : Looking s) {held : HeldOpen}
    (hheld : held ∈ s.heldOpens) (known : List Path) :
    LetGo held (s.proceed known) ∨
      held ∈ (s.proceed known).heldOpens ∧ rank held (s.proceed known) < rank held s := by
  obtain ⟨_, hbatch, heverything, _⟩ := hlooking.pass
  obtain ⟨hlt, hle⟩ := h.held held hheld
  have hbefore : s.pass.reaches held = false := by simp [Pass.reaches, hbatch, heverything]
  have hlower : ∀ t : State, t.pass.reaches held = true → rank held t < rank held s := by
    intro t ht
    unfold rank
    rw [if_pos ht, hbefore, Prod.Lex.toLex_lt_toLex]
    exact .inl Nat.one_pos
  unfold State.proceed
  split
  · next hgoes =>
    split
    · refine .inr ⟨hheld, hlower _ (Pass.reaches_iff.mpr (.inr ⟨_, rfl, ?_⟩))⟩
      exact Nat.le_trans hle (h.numbered.clocked _)
    · next hdirty =>
      have hqueued := (hlooking.covered (h.covered hgoes.1 held.path
        (Nat.lt_of_lt_of_le hlt hle))).resolve_right hdirty
      obtain ⟨change, hmem, hpath⟩ := List.mem_map.mp hqueued
      refine .inr ⟨hheld, hlower _ (Pass.reaches_iff.mpr (.inl ⟨_, List.mem_map_of_mem hmem, hpath, ?_⟩))⟩
      show held.generation ≤ s.snapshots.generation change.1
      rw [hpath]
      exact hle
  · exact .inl (.inr (List.mem_append_right _ hheld))

theorem Announced.announce_rank (h : Announced s) {batch : List Announcement}
    {everything : Option Nat} (hpass : s.pass = .announcing [] batch everything) {a : Announcement}
    (ha : a ∈ batch) {held : HeldOpen} (hheld : held ∈ s.heldOpens) :
    LetGo held (s.announce a batch everything) ∨
      held ∈ (s.announce a batch everything).heldOpens ∧
        rank held (s.announce a batch everything) < rank held s := by
  obtain hready | ⟨hstays, hwaits⟩ := mem_markAnnounced hheld (some a.path) a.generation
  · exact .inl (.inl hready)
  refine .inr ⟨hstays, rank_lt (fun hreaches => ?_) (.inl ?_)⟩
  · rw [Pass.reaches_iff, hpass] at hreaches
    rw [Pass.reaches_iff]
    refine hreaches.imp (fun ⟨b, hb, hpath, hle⟩ => ⟨b, List.mem_filter.mpr ⟨hb, ?_⟩, hpath, hle⟩) id
    have hne : b.path ≠ a.path := by
      intro hsame
      have huniform := h.uniform
      rw [hpass] at huniform
      have hgeneration := huniform b hb a ha hsame
      have hlt := hwaits (.inl (by rw [← hsame, hpath]))
      omega
    simpa using hne
  · rw [hpass]
    have hshorter : (batch.filter fun other => decide (other.path ≠ a.path)).length < batch.length :=
      List.length_filter_lt_length_iff_exists.mpr ⟨a, ha, by simp⟩
    show 1 + (batch.filter fun other => decide (other.path ≠ a.path)).length + _ < _
    simp only [Pass.left]
    omega

theorem announceEverything_rank {everything : Nat}
    (hpass : s.pass = .announcing [] [] (some everything)) {held : HeldOpen}
    (hheld : held ∈ s.heldOpens) :
    LetGo held (s.announceEverything everything) ∨
      held ∈ (s.announceEverything everything).heldOpens ∧
        rank held (s.announceEverything everything) < rank held s := by
  obtain hready | ⟨hstays, hwaits⟩ := mem_markAnnounced hheld none everything
  · exact .inl (.inl hready)
  refine .inr ⟨hstays, rank_lt (fun hreaches => ?_) (.inl ?_)⟩
  · rw [Pass.reaches_iff, hpass] at hreaches
    obtain ⟨b, hb, _⟩ | ⟨_, hsome, hle⟩ := hreaches
    · simp [Pass.batch] at hb
    · obtain rfl := Option.some.inj hsome
      have hlt := hwaits (.inr rfl)
      omega
  · rw [hpass]
    show 0 < 1 + 0 + 1
    omega

/-- Replying to one open leaves the pass where it was, with the others to reply to. -/
theorem reply_spec (hready : s.pass.ready ≠ []) :
    ∃ first rest, s.pass.ready = first :: rest ∧ s.reply.pass.ready = rest ∧
      s.reply.replied = s.replied ++ [first] ∧ s.reply.heldOpens = s.heldOpens ∧
      s.reply.pass.left = s.pass.left ∧
      ∀ held, s.reply.pass.reaches held = s.pass.reaches held := by
  unfold State.reply
  split
  · next first rest batch everything hpass =>
    rw [hpass]
    exact ⟨first, rest, rfl, rfl, rfl, rfl, rfl, fun _ => rfl⟩
  · next first rest hpass =>
    rw [hpass]
    exact ⟨first, rest, rfl, rfl, rfl, rfl, rfl, fun _ => rfl⟩
  · next hannouncing hlooping =>
    cases hpass : s.pass with
    | idle => simp [hpass, Pass.ready] at hready
    | announcing ready batch everything =>
      cases ready with
      | nil => simp [hpass, Pass.ready] at hready
      | cons first rest => exact absurd hpass (hannouncing first rest batch everything)
    | looping ready =>
      cases ready with
      | nil => simp [hpass, Pass.ready] at hready
      | cons first rest => exact absurd hpass (hlooping first rest)

/-- Whatever happens, a held open is no further from being let go, and each step of a pass brings it
nearer. -/
theorem Announced.held_rank (h : Announced s) (hunderWay : UnderWay s) (he : s.enabled e)
    {held : HeldOpen} (hheld : held ∈ s.heldOpens) :
    LetGo held (s.step e) ∨ held ∈ (s.step e).heldOpens ∧ rank held (s.step e) ≤ rank held s ∧
      (e.ofPass → rank held (s.step e) < rank held s) := by
  have hpass := hunderWay (List.ne_nil_of_mem hheld)
  have hlower : ∀ t : State, LetGo held t ∨ held ∈ t.heldOpens ∧ rank held t < rank held s →
      LetGo held t ∨ held ∈ t.heldOpens ∧ rank held t ≤ rank held s ∧
        (e.ofPass → rank held t < rank held s) := fun t =>
    Or.imp id fun ⟨hstays, hlt⟩ => ⟨hstays, hlt.le, fun _ => hlt⟩
  by_cases hof : e.ofPass
  · refine hlower _ ?_
    cases e with
    | proceed known => exact h.proceed_rank he.1 hheld known
    | announce a =>
      obtain ⟨batch, everything, hpass, ha⟩ := he
      have hannounce := h.announce_rank hpass ha hheld
      unfold State.step
      dsimp only
      rw [hpass]
      exact hannounce
    | announceEverything =>
      obtain ⟨everything, hpass⟩ := he
      have hannounce := announceEverything_rank hpass hheld
      unfold State.step
      dsimp only
      rw [hpass]
      exact hannounce
    | reply =>
      obtain ⟨first, rest, hready, hrest, _, hopens, hleft, hreaches⟩ := reply_spec he
      refine .inr ⟨?_, rank_lt (fun h => (hreaches held).trans h) (.inr ⟨hleft, ?_⟩)⟩
      · show held ∈ s.reply.heldOpens
        rw [hopens]
        exact hheld
      · show s.reply.pass.ready.length < _
        rw [hrest, hready]
        exact Nat.lt_succ_self _
    | _ => exact hof.elim
  · obtain ⟨hsame, hstays⟩ := step_others held hpass he hof
    refine .inr ⟨hstays hheld, ?_, fun hnot => absurd hnot hof⟩
    unfold rank
    rw [hsame]

/-- What a pass has to reply to it replies to before it does anything else. -/
theorem ready_rank (he : s.enabled e) {held : HeldOpen} (hheld : held ∈ s.pass.ready) :
    held ∈ (s.step e).replied ∨ held ∈ (s.step e).pass.ready ∧
      (s.step e).pass.ready.length ≤ s.pass.ready.length ∧
      (e.ofPass → (s.step e).pass.ready.length < s.pass.ready.length) := by
  have hpass : s.pass ≠ .idle := fun hidle => by simp [hidle, Pass.ready] at hheld
  by_cases hof : e.ofPass
  · cases e with
    | proceed known =>
      obtain ⟨hready, _⟩ := Looking.pass he.1
      simp [hready] at hheld
    | announce a =>
      obtain ⟨batch, everything, hpass, _⟩ := he
      simp [hpass, Pass.ready] at hheld
    | announceEverything =>
      obtain ⟨everything, hpass⟩ := he
      simp [hpass, Pass.ready] at hheld
    | reply =>
      obtain ⟨first, rest, hready, hrest, hreplied, _⟩ := reply_spec he
      show held ∈ s.reply.replied ∨ held ∈ s.reply.pass.ready ∧
        s.reply.pass.ready.length ≤ _ ∧ (_ → s.reply.pass.ready.length < _)
      rw [hready] at hheld ⊢
      rw [hrest, hreplied]
      obtain rfl | hheld := List.mem_cons.mp hheld
      · exact .inl (List.mem_append_right _ (List.mem_singleton_self _))
      · exact .inr ⟨hheld, Nat.le_succ _, fun _ => Nat.lt_succ_self _⟩
    | _ => exact hof.elim
  · obtain ⟨hsame, _⟩ := step_others held hpass he hof
    rw [hsame]
    exact .inr ⟨hheld, Nat.le_refl _, fun hnot => absurd hnot hof⟩

/-- What is leaving stays so until it is replied to. -/
theorem leaving_step {held : HeldOpen} (hheld : held ∈ s.leaving) :
    held ∈ (s.step e).replied ∨ held ∈ (s.step e).leaving ∧ e ≠ .replyLeaving held.number := by
  have hstart : ∀ t : State, held ∈ t.leaving → held ∈ t.startNotifying.leaving := by
    intro t ht
    rw [(startNotifying_spec t).1]
    exact ht
  have hmark : ∀ path generation, held ∈ (s.markAnnounced path generation).1.leaving := by
    intro path generation
    rw [(markAnnounced_spec s path generation).1]
    exact hheld
  cases e with
  | treeChanged diff =>
    refine .inr ⟨?_, by simp⟩
    show held ∈ (s.onTreeChanged diff).leaving
    unfold State.onTreeChanged
    dsimp only
    split
    · exact hheld
    · split
      · exact hstart _ hheld
      · exact hstart _ hheld
  | replyWhenAnnounced snapshot =>
    refine .inr ⟨?_, by simp⟩
    unfold State.step
    dsimp only
    split
    · unfold State.replyWhenAnnounced
      dsimp only
      split
      · exact hstart _ hheld
      · exact List.mem_append_left _ hheld
    · exact hheld
  | proceed known =>
    refine .inr ⟨?_, by simp⟩
    show held ∈ (s.proceed known).leaving
    unfold State.proceed
    split
    · split
      · exact hheld
      · exact hheld
    · exact List.mem_append_left _ hheld
  | announce a =>
    refine .inr ⟨?_, by simp⟩
    unfold State.step
    dsimp only
    split
    · exact hmark (some a.path) a.generation
    · exact hheld
  | announceEverything =>
    refine .inr ⟨?_, by simp⟩
    unfold State.step
    dsimp only
    split
    · next everything _ => exact hmark none everything
    · exact hheld
  | reply =>
    refine .inr ⟨?_, by simp⟩
    show held ∈ s.reply.leaving
    unfold State.reply
    split <;> exact hheld
  | replyLeaving number =>
    by_cases heq : held.number = number
    · exact .inl (List.mem_append_right _ (List.mem_filter.mpr ⟨hheld, decide_eq_true heq⟩))
    · exact .inr ⟨List.mem_filter.mpr ⟨hheld, decide_eq_true heq⟩, fun h => by
        injection h with h
        exact heq h.symm⟩
  | replyHeld => exact .inr ⟨List.mem_append_left _ hheld, by simp⟩
  | snapshots e => exact .inr ⟨hheld, by simp⟩
  | stop => exact .inr ⟨hheld, by simp⟩

/-- A run in which a pass under way goes on, and each thread with an open to reply to comes to do
it. -/
structure Fair {ok : State → Event → Prop} (r : Run machine ok) : Prop where
  pass : ∀ n, (r.state n).pass ≠ .idle → ∃ k, n ≤ k ∧ ∃ e, r.event k = some e ∧ e.ofPass
  leaving : ∀ n, ∀ held ∈ (r.state n).leaving, ∃ k, n ≤ k ∧
    r.event k = some (.replyLeaving held.number)

theorem given_leadsTo {ok : State → Event → Prop} {r : Run machine ok} (hfair : Fair r)
    (held : HeldOpen) : r.LeadsTo (fun s => held ∈ s.given) fun s => held ∈ s.replied := by
  have hleaving : r.LeadsTo (fun s => held ∈ s.leaving) fun s => held ∈ s.replied := by
    refine Run.leadsTo_of_rank (fun _ => (0 : Nat)) (fun _ e => e = .replyLeaving held.number)
      (fun s e _ _ _ hheld => ?_) fun n hn => ?_
    · exact (leaving_step hheld).imp id fun ⟨hstays, hne⟩ =>
        ⟨hstays, Nat.le_refl _, fun heq => absurd heq hne⟩
    · obtain ⟨k, hle, hevent⟩ := hfair.leaving n held hn
      exact ⟨k, hle, _, hevent, rfl⟩
  have hready : r.LeadsTo (fun s => held ∈ s.pass.ready) fun s => held ∈ s.replied := by
    refine Run.leadsTo_of_rank (fun s => s.pass.ready.length) (fun _ e => e.ofPass)
      (fun s e _ he _ hheld => ready_rank he hheld) fun n hn => hfair.pass n fun hidle => ?_
    simp [hidle, Pass.ready] at hn
  have hheld : r.LeadsTo (fun s => held ∈ s.heldOpens) (LetGo held) := by
    refine Run.leadsTo_of_rank (rank held) (fun _ e => e.ofPass)
      (fun s e hs he _ hheld => ?_) fun n hn => hfair.pass n ?_
    · obtain ⟨hannounced, hunderWay⟩ := announced hs
      exact hannounced.held_rank hunderWay he hheld
    · exact (announced (r.reachable n)).2 (List.ne_nil_of_mem hn)
  have hgo : r.LeadsTo (LetGo held) fun s => held ∈ s.replied := hready.or hleaving
  intro n hn
  have hmem := (announced (r.reachable n)).1.conserved.mem_iff.mpr hn
  simp only [List.mem_append] at hmem
  obtain ((hmem | hmem) | hmem) | hmem := hmem
  · exact (hheld.trans hgo) n hmem
  · exact hready n hmem
  · exact hleaving n hmem
  · exact ⟨n, Nat.le_refl n, hmem⟩

/-- What is replied to has been ready or leaving. -/
theorem replied_step {held : HeldOpen} (h : held ∈ (s.step e).replied) :
    held ∈ s.replied ∨ held ∈ s.pass.ready ++ s.leaving := by
  have hstart : ∀ t : State, t.startNotifying.replied = t.replied := by
    intro t
    rw [(startNotifying_spec t).1]
  have hmark : ∀ path generation, (s.markAnnounced path generation).1.replied = s.replied := by
    intro path generation
    rw [(markAnnounced_spec s path generation).1]
  cases e with
  | treeChanged diff =>
    have h : held ∈ (s.onTreeChanged diff).replied := h
    unfold State.onTreeChanged at h
    dsimp only at h
    split at h
    · exact .inl h
    · split at h <;> rw [hstart] at h <;> exact .inl h
  | replyWhenAnnounced snapshot =>
    unfold State.step at h
    dsimp only at h
    split at h
    · unfold State.replyWhenAnnounced at h
      dsimp only at h
      split at h
      · rw [hstart] at h
        exact .inl h
      · exact .inl h
    · exact .inl h
  | proceed known =>
    have h : held ∈ (s.proceed known).replied := h
    unfold State.proceed at h
    split at h
    · split at h <;> exact .inl h
    · exact .inl h
  | announce a =>
    unfold State.step at h
    dsimp only at h
    split at h
    · have h : held ∈ (s.markAnnounced (some a.path) a.generation).1.replied := h
      rw [hmark] at h
      exact .inl h
    · exact .inl h
  | announceEverything =>
    unfold State.step at h
    dsimp only at h
    split at h
    · next everything _ =>
      have h : held ∈ (s.markAnnounced none everything).1.replied := h
      rw [hmark] at h
      exact .inl h
    · exact .inl h
  | reply =>
    have h : held ∈ s.reply.replied := h
    unfold State.reply at h
    split at h
    · next hpass =>
      rw [hpass]
      refine (List.mem_append.mp h).imp id fun hmem => List.mem_append_left _ ?_
      rw [List.mem_singleton.mp hmem]
      exact List.mem_cons_self ..
    · next hpass =>
      rw [hpass]
      refine (List.mem_append.mp h).imp id fun hmem => List.mem_append_left _ ?_
      rw [List.mem_singleton.mp hmem]
      exact List.mem_cons_self ..
    · exact .inl h
  | replyLeaving number =>
    exact (List.mem_append.mp h).imp id fun hmem =>
      List.mem_append_right _ (List.mem_filter.mp hmem).1
  | _ => exact .inl h

/-- Of the opens given each is, at any time, in one place, held only while a pass is under way, and
replied to, unless the filesystem is stopping, only once its generation is announced; each
generation that is not announced is on its way to it; and in a run where passes go on each open
given is replied to. -/
theorem opens_announced :
    (∀ s, machine.Reachable (fun _ _ => True) s →
      (s.heldOpens ++ s.pass.ready ++ s.leaving ++ s.replied).Perm s.given ∧ s.given.Nodup ∧
      (∀ e, machine.enabled s e → ∀ held ∈ (machine.step s e).replied, held ∈ s.replied ∨
        s.stopping = true ∨ held.generation ≤ s.announced held.path) ∧
      (s.heldOpens ≠ [] → s.pass ≠ .idle) ∧
      (s.stopping = false → ∀ path, s.announced path < s.snapshots.generation path →
        Covered s path)) ∧
    ∀ r : Run machine fun _ _ => True, Fair r → ∀ n, ∀ held ∈ (r.state n).given,
      ∃ k, n ≤ k ∧ held ∈ (r.state k).replied := by
  refine ⟨fun s hs => ?_, fun r hfair n held hheld => given_leadsTo hfair held n hheld⟩
  obtain ⟨hannounced, hunderWay⟩ := announced hs
  refine ⟨hannounced.conserved, ?_, fun e _ held hheld => ?_, hunderWay, hannounced.covered⟩
  · refine List.Nodup.of_map HeldOpen.number ?_
    rw [hannounced.numbers]
    exact List.nodup_range
  · exact (replied_step hheld).imp id fun hmem => hannounced.told held hmem

/-- A change, then an open of what it left before a pass has come to announce it. -/
def waiting : List Event :=
  [.treeChanged { entriesChanged := [["a".toList]] }, .snapshots (.begin ["a".toList]),
    .snapshots (.status 0 none), .snapshots (.look 0), .snapshots (.compare 0),
    .snapshots (.read 0 none), .snapshots (.insert 0 7), .replyWhenAnnounced 0, .proceed [],
    .announce { path := ["a".toList], kind := .modified, generation := 1 }, .reply, .proceed []]

def unchanged : State := { snapshots := { history := fun _ => [.file [1] 1] } }

theorem waiting_fires : machine.Fires (fun _ _ => True) unchanged waiting := by
  refine ⟨trivial, trivial, ⟨trivial, by simp⟩, trivial, ⟨⟨_, rfl, rfl⟩, by simp⟩, trivial,
    ⟨⟨_, _, rfl, rfl⟩, by simp⟩, trivial, ⟨⟨_, _, _, rfl, rfl⟩, by simp⟩, trivial,
    ⟨⟨_, rfl, rfl⟩, by simp⟩, trivial, ⟨⟨⟨_, _, _, rfl, rfl⟩, ?_⟩, by simp⟩, trivial, ⟨_, rfl⟩,
    trivial, ⟨.inl rfl, List.nodup_nil⟩, trivial, ⟨_, _, rfl, List.mem_singleton_self _⟩, trivial,
    ?_, trivial, ⟨.inr rfl, List.nodup_nil⟩, trivial, trivial⟩
  · intro other
    show none ≠ some 7
    simp
  · exact List.cons_ne_nil _ _

def waitingRun : Run machine fun _ _ => True := .ofFires ⟨_, ⟨_, rfl⟩, rfl⟩ waiting_fires

theorem waitingRun_fair : Fair waitingRun := by
  have hafter : ∀ n, 12 ≤ n → waitingRun.state n = machine.runs unchanged waiting := by
    intro n hn
    show machine.runs unchanged (waiting.take n) = _
    rw [List.take_of_length_le hn]
  refine ⟨fun n hpass => ?_, fun n held hheld => ?_⟩
  · by_cases hn : n ≤ 11
    · exact ⟨11, hn, .proceed [], rfl, trivial⟩
    · rw [hafter n (by omega)] at hpass
      exact absurd rfl hpass
  · have hnone : (waitingRun.state n).leaving = [] := by
      by_cases hn : n < 12
      · interval_cases n <;> rfl
      · rw [hafter n (by omega)]
        rfl
    rw [hnone] at hheld
    simp at hheld

/-- The open is held until its generation is announced, and replied to then. -/
theorem opens_announced_waiting :
    (waitingRun.state 8).heldOpens = [{ number := 0, path := ["a".toList], generation := 1 }] ∧
    (waitingRun.state 8).pass ≠ .idle ∧
    ∃ k, 8 ≤ k ∧ { number := 0, path := ["a".toList], generation := 1 } ∈
      (waitingRun.state k).replied := by
  obtain ⟨hstates, hruns⟩ := opens_announced
  obtain ⟨_, _, _, hunderWay, _⟩ := hstates _ (waitingRun.reachable 8)
  refine ⟨rfl, hunderWay (List.cons_ne_nil _ _), hruns waitingRun waitingRun_fair 8 _ ?_⟩
  exact List.mem_singleton_self _

end MakeBelieve.FileSystem
