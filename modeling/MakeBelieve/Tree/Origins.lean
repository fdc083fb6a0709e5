import MakeBelieve.Tree.Placed
import MakeBelieve.Tree.Provenance

namespace MakeBelieve.Tree

open Library Library.Memo

theorem Cache.read_hash {contentHash : Bytes → Hash} {cache : Cache} {hash : Hash} {bytes : Bytes}
    (h : cache.read contentHash hash = some bytes) : contentHash bytes = hash := by
  unfold Cache.read at h
  split at h
  · split at h
    · split at h
      · next heq => exact Option.some.inj h ▸ heq
      · simp at h
    · simp at h
  · simp at h

namespace World

variable {contentHash : Bytes → Hash} {cached : Bool}
variable {w : World} {b : BuildId} {o : Path} {e : Event} {p : Provenance}

/-! ### Content is what its origin says -/

/-- Whether an output's content is what the origin noted for it says: the placeholder's, that of a
record the cache was left with, or what a build of the output made. -/
def MadeBy (contentHash : Bytes → Hash) (s : World × Provenance) (output : Path) (bytes : Bytes) :
    Origin → Prop
  | .placeholder => ∃ mtime, bytes = (State.placeholder mtime).bytes
  | .restored => ∃ record ∈ s.2.before, record.command.output = output ∧
      contentHash bytes = record.hash
  | .build b => (s.1.builds b).launch.output = output ∧ s.2.made b = some bytes

/-- Every file has an origin its content is of, which is no build that has yet to make it. -/
structure Attested (contentHash : Bytes → Hash) (s : World × Provenance) : Prop where
  content : ∀ o file, s.1.tree.files o = some file →
    ∃ origin, s.1.origin o = some origin ∧ MadeBy contentHash s o file.bytes origin
  made : ∀ o b, s.1.origin o = some (.build b) → b < s.1.buildCount ∧
    (s.1.builds b).stage ≠ .claimed ∧ (s.1.builds b).stage ≠ .working

/-- What a build has made is noted once. -/
theorem note_made (he : w.enabled e) (hclaimed : (w.builds b).stage ≠ .claimed)
    (hworking : (w.builds b).stage ≠ .working) : (noteProvenance w e p).made b = p.made b := by
  by_cases hown : e.build = some b
  · cases e with
    | launch c start =>
      obtain rfl := Option.some.inj hown
      exact absurd he.1 hclaimed
    | endWork c result =>
      obtain rfl := Option.some.inj hown
      exact absurd he.1 hworking
    | store c ok =>
      cases ok with
      | false => rfl
      | true =>
        unfold noteProvenance
        dsimp only
        split <;> rfl
    | _ => rfl
  · exact (note_others hown).1

/-- A build that is past its work stays so. -/
theorem Sound.past_work (hs : Sound w) (he : w.enabled e) (hlt : b < w.buildCount)
    (hclaimed : (w.builds b).stage ≠ .claimed) (hworking : (w.builds b).stage ≠ .working) :
    ((w.step contentHash cached e).builds b).stage ≠ .claimed ∧
      ((w.step contentHash cached e).builds b).stage ≠ .working := by
  by_cases hown : e.build = some b
  · have hstep := @Sound.stepped contentHash cached w b e hs he hown
    generalize ((w.step contentHash cached e).builds b).stage = stage at hstep
    have hafter : ∀ result keep, afterRelease result keep ≠ .claimed ∧
        afterRelease result keep ≠ .working := fun result keep => by
      unfold afterRelease
      split <;> simp
    cases hstep with
    | traced _ hs' | ran hs' | threw _ hs' => exact absurd hs' hclaimed
    | completed | orphanCompleted => exact hafter _ _
    | _ => simp
  · rw [step_others w e hown hlt]
    exact ⟨hclaimed, hworking⟩

theorem Attested.made_step {s : World × Provenance} (h : Attested contentHash s) (hs : Sound s.1)
    (he : s.1.enabled e) {o : Path}
    (horigin : (s.1.step contentHash cached e).origin o = some (.build b)) :
    b < (s.1.step contentHash cached e).buildCount ∧
      ((s.1.step contentHash cached e).builds b).stage ≠ .claimed ∧
      ((s.1.step contentHash cached e).builds b).stage ≠ .working := by
  have hold : b < s.1.buildCount ∧ (s.1.builds b).stage ≠ .claimed ∧
      (s.1.builds b).stage ≠ .working := by
    have hplaces := @step_places contentHash cached s.1 e he o
    cases hplaces with
    | same _ hsame => exact h.made o b (hsame ▸ horigin)
    | @written c _ _ _ _ hstage _ _ hwritten =>
      obtain rfl := Origin.build.inj (Option.some.inj (hwritten.symm.trans horigin))
      exact ⟨hs.build_lt he rfl, by simp [hstage]⟩
    | removed _ _ hgone =>
      rw [hgone] at horigin
      simp at horigin
    | placed _ _ hplaced =>
      rw [hplaced] at horigin
      simp at horigin
  exact ⟨Nat.lt_of_lt_of_le hold.1 (step_onward s.1 e).buildCount,
    hs.past_work he hold.1 hold.2.1 hold.2.2⟩

theorem Attested.content_step {s : World × Provenance} (h : Attested contentHash s)
    (hnoted : ∀ b, NotedBuild s.1 s.2 b) (hs : Sound s.1) (he : s.1.enabled e) {o : Path}
    {file : File}
    (hfile : (s.1.step contentHash cached e).tree.files o = some file) :
    ∃ origin, (s.1.step contentHash cached e).origin o = some origin ∧
      MadeBy contentHash (s.1.step contentHash cached e, noteProvenance s.1 e s.2) o file.bytes
        origin := by
  have hon := @step_onward contentHash cached s.1 e
  have hplaces := @step_places contentHash cached s.1 e he o
  cases hplaces with
  | same hsame horigin =>
    obtain ⟨origin, hold, hmade⟩ := h.content o file (hsame ▸ hfile)
    refine ⟨origin, horigin.trans hold, ?_⟩
    cases origin with
    | placeholder => exact hmade
    | restored =>
      obtain ⟨record, hmem, hrecord⟩ := hmade
      exact ⟨record, by rw [note_before]; exact hmem, hrecord⟩
    | build b =>
      obtain ⟨hlt, hclaimed, hworking⟩ := h.made o b hold
      exact ⟨(congrArg Launch.output (hon.launch b hlt)).trans hmade.1,
        (note_made he hclaimed hworking).trans hmade.2⟩
  | @written b bytes inputs builtAt keep hstage hout hwritten horigin =>
    obtain rfl := Option.some.inj (hwritten.symm.trans hfile)
    have hlt := hs.build_lt he rfl
    refine ⟨.build b, horigin, (congrArg Launch.output (hon.launch b hlt)).trans hout, ?_⟩
    exact (note_made he (by simp [hstage]) (by simp [hstage])).trans
      ((hnoted b).made bytes (by rw [hstage]; rfl))
  | removed _ hgone =>
    rw [hgone] at hfile
    simp at hfile
  | placed _ hplaced horigin =>
    obtain rfl := Option.some.inj (hplaced.symm.trans hfile)
    exact ⟨.placeholder, horigin, _, rfl⟩

theorem Attested.step {s : World × Provenance} (h : Attested contentHash s)
    (hnoted : ∀ b, NotedBuild s.1 s.2 b) (hs : Sound s.1) (he : s.1.enabled e) :
    Attested contentHash (s.1.step contentHash cached e, noteProvenance s.1 e s.2) :=
  ⟨fun _ _ hfile => h.content_step hnoted hs he hfile,
    fun _ _ horigin => h.made_step hs he horigin⟩

/-- The constructor serves each output from its record, or with its placeholder. -/
theorem Starts.served_from (h : Starts contentHash cached w) {file : File}
    (hfile : w.tree.files o = some file) :
    w.tree.stale o = true ∧ (∃ mtime, file.bytes = (State.placeholder mtime).bytes) ∨
      w.tree.stale o = false ∧ ∃ record ∈ w.cache.records, record.command.output = o ∧
        contentHash file.bytes = record.hash := by
  obtain ⟨commands, mtime, source, cache, tree, htree, rfl⟩ := h
  have hconstructed : ∀ file, (constructed commands mtime).files o = some file →
      (constructed commands mtime).stale o = true ∧ file = State.placeholder mtime := by
    intro file hfile
    rw [constructed_eq] at hfile ⊢
    dsimp only at hfile ⊢
    split at hfile
    · next hd => exact ⟨hd, (Option.some.inj hfile).symm⟩
    · simp at hfile
  change tree.files o = some file at hfile
  show tree.stale o = true ∧ _ ∨ tree.stale o = false ∧ ∃ record ∈ cache.records, _
  cases cached with
  | false =>
    obtain ⟨_, rfl⟩ := htree
    obtain ⟨hstale, rfl⟩ := hconstructed file hfile
    exact .inl ⟨hstale, mtime, rfl⟩
  | true =>
    obtain ⟨before, n, hn, hrun⟩ := htree
    obtain ⟨kept, t, hrun', hexactly⟩ := @restoreFromCache_exactly source contentHash before n hn _
      (constructed_inverse commands mtime)
    obtain ⟨rfl, rfl⟩ := Prod.mk.inj (Option.some.inj (hrun.symm.trans hrun'))
    by_cases hrestored : o ∈ least (cacheConds source contentHash before
        (constructed commands mtime).commands)
    · obtain ⟨record, hmem, rfl, _⟩ := (isLeast_restorable.1 o).mp hrestored
      obtain ⟨bytes, hread, hserved⟩ := hexactly.served record hmem hrestored
      obtain rfl := Option.some.inj (hserved.files.symm.trans hfile)
      exact .inr ⟨hserved.stale, record, (hexactly.records record).mpr ⟨hmem, hrestored⟩, rfl,
        Cache.read_hash hread⟩
    · have hsame := hexactly.others o hrestored
      obtain ⟨hstale, rfl⟩ := hconstructed file (hsame.files.symm.trans hfile)
      exact .inl ⟨hsame.stale.trans hstale, mtime, rfl⟩

theorem attested_start {s : World × Provenance} (hstart : Starts contentHash cached s.1)
    (hnote : s.2 = { before := s.1.cache.records }) : Attested contentHash s := by
  have horigin : ∀ o, s.1.origin o = if s.1.tree.declared o then
      some (if s.1.tree.stale o then .placeholder else .restored) else none := by
    obtain ⟨_, _, _, _, _, _, hw⟩ := hstart
    rw [hw]
    exact fun _ => rfl
  refine ⟨fun o file hfile => ?_, fun o b hb => ?_⟩
  · have hd : s.1.tree.declared o = true :=
      (hstart.files o).mp (by rw [Laid, hfile]; rfl)
    rw [horigin, if_pos hd]
    obtain ⟨hstale, hplaceholder⟩ | ⟨hstale, hrecord⟩ := hstart.served_from hfile
    · exact ⟨.placeholder, by rw [hstale]; rfl, hplaceholder⟩
    · exact ⟨.restored, by rw [hstale]; rfl, by rw [MadeBy, hnote]; exact hrecord⟩
  · rw [horigin] at hb
    split at hb
    · split at hb <;> simp at hb
    · simp at hb

/-- Whatever is served is what its origin says. -/
theorem attested {ok : World × Provenance → Event → Prop} {s : World × Provenance}
    (h : (provenances contentHash cached).Reachable ok s) : Attested contentHash s := by
  have hnoted : ∀ {s : World × Provenance}, (provenances contentHash cached).Reachable ok s →
      ∀ b, NotedBuild s.1 s.2 b := fun h => by
    refine h.invariant_under (Q := fun s => Sound s.1) (P := fun s => ∀ b, NotedBuild s.1 s.2 b)
      (fun s hs => sound hs.unnoted) (fun s hstart => ?_) fun s e hs hn he _ b => ?_
    · exact (noted_start hstart.1 hstart.2).build
    · exact @NotedBuild.step contentHash cached s.1 b e s.2 hs (hn b) he
  refine h.invariant_under (Q := fun s => Sound s.1 ∧ ∀ b, NotedBuild s.1 s.2 b)
    (P := Attested contentHash) (fun s hs => ⟨sound hs.unnoted, hnoted hs⟩)
    (fun s hstart => ?_) fun s e hs ha he _ => ha.step hs.2 hs.1 he
  exact attested_start hstart.1 hstart.2

end World

end MakeBelieve.Tree
