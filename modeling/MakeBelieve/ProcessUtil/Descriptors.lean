import Mathlib.Data.List.Nodup
import MakeBelieve.ProcessUtil.Tracing

namespace MakeBelieve.ProcessUtil

open Library

/-- A live tracer's descriptors: the root's, those of the files and the streams it has handed out,
each once and apart from the others; and no more, unless a request threw. -/
structure Owned (root : Fd) (files : List Fd) (dirs : List Dir) (failed : Bool) (h : Host) :
    Prop where
  rooted : ∃ id, h.fds root = some ⟨id, .tracer⟩
  rootApart : root ∉ files
  eachFile : ∀ fd ∈ files, ∃ id, h.fds fd = some ⟨id, .tracer⟩
  filesNodup : files.Nodup
  streams : ∀ dir fd stream, h.streams dir = some (fd, stream) →
    (∃ id, h.fds fd = some ⟨id, .tracer⟩) ∧ fd ≠ root ∧ fd ∉ files ∧
      ∀ dir' stream', h.streams dir' = some (fd, stream') → dir' = dir
  eachDir : ∀ dir ∈ dirs, (h.streams dir).isSome = true
  dirsNodup : dirs.Nodup
  nothingElse : failed = false → ∀ fd id, h.fds fd = some ⟨id, .tracer⟩ →
    fd = root ∨ fd ∈ files ∨ ∃ dir ∈ dirs, ∃ stream, h.streams dir = some (fd, stream)
  closed : ∀ file ∈ h.closed, ∃ id, file = some ⟨id, .tracer⟩

namespace Owned

variable {root fd : Fd} {files : List Fd} {dir : Dir} {dirs : List Dir} {failed : Bool} {h : Host}
  {id : FileId} {stream : Stream}

theorem fail (o : Owned root files dirs failed h) : Owned root files dirs true h :=
  ⟨o.rooted, o.rootApart, o.eachFile, o.filesNodup, o.streams, o.eachDir, o.dirsNodup, by simp,
    o.closed⟩

/-- A descriptor no one has is not one of these. -/
theorem free (o : Owned root files dirs failed h) (hfree : h.fds fd = none) :
    fd ≠ root ∧ fd ∉ files ∧ ∀ dir stream, h.streams dir ≠ some (fd, stream) := by
  refine ⟨?_, ?_, ?_⟩
  · rintro rfl
    obtain ⟨id, hroot⟩ := o.rooted
    simp [hfree] at hroot
  · intro hmem
    obtain ⟨id, hfile⟩ := o.eachFile fd hmem
    simp [hfree] at hfile
  · intro dir stream hstream
    obtain ⟨⟨id, hfile⟩, _⟩ := o.streams dir fd stream hstream
    simp [hfree] at hfile

/-- The tracer's own descriptors stay where another is changed. -/
theorem elsewhere {file : Option OpenFile} {other : Fd} (hne : other ≠ fd)
    (hother : ∃ id, h.fds other = some ⟨id, .tracer⟩) :
    ∃ id, Function.update h.fds fd file other = some ⟨id, .tracer⟩ := by
  rw [Function.update_of_ne hne]
  exact hother

/-- The rest of the process opens what is free, and closes its own. -/
theorem rest (o : Owned root files dirs failed h) {file : Option OpenFile}
    (hfd : ∀ id, h.fds fd ≠ some ⟨id, .tracer⟩) (hfile : ∀ id, file ≠ some ⟨id, .tracer⟩) :
    Owned root files dirs failed { h with fds := Function.update h.fds fd file } := by
  have hne : ∀ other, (∃ id, h.fds other = some ⟨id, .tracer⟩) → other ≠ fd := by
    rintro other ⟨id, hother⟩ rfl
    exact hfd id hother
  constructor
  · exact elsewhere (hne root o.rooted) o.rooted
  · exact o.rootApart
  · intro other hother
    have howned := o.eachFile other hother
    exact elsewhere (hne other howned) howned
  · exact o.filesNodup
  · intro dir other stream hstream
    obtain ⟨howned, hapart⟩ := o.streams dir other stream hstream
    exact ⟨elsewhere (hne other howned) howned, hapart⟩
  · exact o.eachDir
  · exact o.dirsNodup
  · intro hok other id hother
    dsimp only at hother
    by_cases heq : other = fd
    · rw [heq, Function.update_self] at hother
      exact absurd hother (hfile id)
    · rw [Function.update_of_ne heq] at hother
      exact o.nothingElse hok other id hother
  · exact o.closed

/-- A descriptor opened and not handed out yet. -/
theorem opens (o : Owned root files dirs failed h) (hfree : h.fds fd = none) (id : FileId) :
    Owned root files dirs true (h.opened fd ⟨id, .tracer⟩) := by
  obtain ⟨hroot, hfiles, hstreams⟩ := o.free hfree
  constructor
  · exact elsewhere (Ne.symm hroot) o.rooted
  · exact o.rootApart
  · intro other hother
    refine elsewhere ?_ (o.eachFile other hother)
    rintro rfl
    exact hfiles hother
  · exact o.filesNodup
  · intro dir other stream hstream
    obtain ⟨howned, hapart⟩ := o.streams dir other stream hstream
    refine ⟨elsewhere ?_ howned, hapart⟩
    rintro rfl
    exact hstreams dir stream hstream
  · exact o.eachDir
  · exact o.dirsNodup
  · intro hok
    simp at hok
  · exact o.closed

theorem hands (o : Owned root files dirs failed h) (hfree : h.fds fd = none) (id : FileId) :
    Owned root (files.insert fd) dirs failed (h.opened fd ⟨id, .tracer⟩) := by
  obtain ⟨hroot, hfiles, hstreams⟩ := o.free hfree
  have hopened := o.opens hfree id
  rw [List.insert_of_not_mem hfiles]
  constructor
  · exact hopened.rooted
  · intro hmem
    obtain heq | hmem := List.mem_cons.mp hmem
    · exact hroot heq.symm
    · exact o.rootApart hmem
  · intro other hother
    obtain rfl | hmem := List.mem_cons.mp hother
    · exact ⟨id, by simp [Host.opened]⟩
    · exact hopened.eachFile other hmem
  · exact List.nodup_cons.mpr ⟨hfiles, o.filesNodup⟩
  · intro dir other stream hstream
    obtain ⟨howned, hne, hapart, hone⟩ := hopened.streams dir other stream hstream
    refine ⟨howned, hne, ?_, hone⟩
    intro hmem
    obtain rfl | hmem := List.mem_cons.mp hmem
    · exact hstreams dir stream hstream
    · exact hapart hmem
  · exact o.eachDir
  · exact o.dirsNodup
  · intro hok other id' hother
    by_cases heq : other = fd
    · exact .inr (.inl (heq ▸ List.mem_cons_self))
    · unfold Host.opened at hother
      dsimp only at hother
      rw [Function.update_of_ne heq] at hother
      obtain hroot | hmem | hdir := o.nothingElse hok other id' hother
      · exact .inl hroot
      · exact .inr (.inl (List.mem_cons_of_mem fd hmem))
      · exact .inr (.inr hdir)
  · exact o.closed

/-- A stream opened and not handed out yet. -/
theorem opensDir (o : Owned root files dirs failed h) (hfree : h.fds fd = none) (id : FileId)
    (stream : Stream) :
    Owned root files dirs true ((h.opened fd ⟨id, .tracer⟩).fdopendir dir fd stream) := by
  obtain ⟨hroot, hfiles, hstreams⟩ := o.free hfree
  have hopened := o.opens hfree id
  constructor
  · exact hopened.rooted
  · exact hopened.rootApart
  · exact hopened.eachFile
  · exact hopened.filesNodup
  · intro other other' stream' hstream
    unfold Host.fdopendir at hstream ⊢
    dsimp only at hstream ⊢
    by_cases heq : other = dir
    · rw [heq, Function.update_self] at hstream
      obtain ⟨rfl, rfl⟩ := Prod.mk.inj (Option.some.inj hstream)
      refine ⟨⟨id, by simp [Host.opened]⟩, hroot, hfiles, ?_⟩
      intro dir' stream'' hstream'
      by_cases heq' : dir' = dir
      · rw [heq', heq]
      · rw [Function.update_of_ne heq'] at hstream'
        exact absurd hstream' (hstreams dir' stream'')
    · rw [Function.update_of_ne heq] at hstream
      obtain ⟨howned, hne, hapart, hone⟩ := hopened.streams other other' stream' hstream
      refine ⟨howned, hne, hapart, ?_⟩
      intro dir' stream'' hstream'
      by_cases heq' : dir' = dir
      · rw [heq', Function.update_self] at hstream'
        obtain ⟨rfl, rfl⟩ := Prod.mk.inj (Option.some.inj hstream')
        exact absurd hstream (hstreams other stream')
      · rw [Function.update_of_ne heq'] at hstream'
        exact hone dir' stream'' hstream'
  · intro other hother
    unfold Host.fdopendir
    dsimp only
    by_cases heq : other = dir
    · rw [heq, Function.update_self]
      rfl
    · rw [Function.update_of_ne heq]
      exact o.eachDir other hother
  · exact o.dirsNodup
  · intro hok
    simp at hok
  · exact o.closed

theorem handsDir (o : Owned root files dirs failed h) (hfree : h.fds fd = none)
    (hdir : h.streams dir = none) (id : FileId) (stream : Stream) :
    Owned root files (dirs.insert dir) failed
      ((h.opened fd ⟨id, .tracer⟩).fdopendir dir fd stream) := by
  have hopened : Owned root files dirs true
      ((h.opened fd ⟨id, .tracer⟩).fdopendir dir fd stream) := o.opensDir hfree id stream
  have hmem : dir ∉ dirs := by
    intro hmem
    have hsome := o.eachDir dir hmem
    simp [hdir] at hsome
  rw [List.insert_of_not_mem hmem]
  refine ⟨hopened.rooted, hopened.rootApart, hopened.eachFile, hopened.filesNodup, hopened.streams,
    ?_, List.nodup_cons.mpr ⟨hmem, o.dirsNodup⟩, ?_, hopened.closed⟩
  · intro other hother
    obtain rfl | hother := List.mem_cons.mp hother
    · simp [Host.fdopendir]
    · exact hopened.eachDir other hother
  · intro hok other id' hother
    unfold Host.fdopendir Host.opened at hother
    dsimp only at hother
    by_cases heq : other = fd
    · refine .inr (.inr ⟨dir, List.mem_cons_self, stream, ?_⟩)
      rw [heq]
      simp [Host.fdopendir]
    · rw [Function.update_of_ne heq] at hother
      obtain hroot | hfile | ⟨dir', hdir', stream', hstream'⟩ :=
        o.nothingElse hok other id' hother
      · exact .inl hroot
      · exact .inr (.inl hfile)
      · refine .inr (.inr ⟨dir', List.mem_cons_of_mem dir hdir', stream', ?_⟩)
        have hne : dir' ≠ dir := by
          rintro rfl
          exact hmem hdir'
        unfold Host.fdopendir Host.opened
        dsimp only
        rw [Function.update_of_ne hne]
        exact hstream'

/-- A stream moved along keeps its descriptor. -/
theorem moves (o : Owned root files dirs failed h) (hstream : h.streams dir = some (fd, stream))
    (stream' : Stream) : Owned root files dirs failed (h.fdopendir dir fd stream') := by
  have hthere : ∀ other other' stream'', (h.fdopendir dir fd stream').streams other =
      some (other', stream'') → ∃ stream, h.streams other = some (other', stream) := by
    intro other other' stream'' hother
    unfold Host.fdopendir at hother
    dsimp only at hother
    by_cases heq : other = dir
    · rw [heq, Function.update_self] at hother
      obtain ⟨rfl, rfl⟩ := Prod.mk.inj (Option.some.inj hother)
      exact ⟨stream, heq ▸ hstream⟩
    · rw [Function.update_of_ne heq] at hother
      exact ⟨stream'', hother⟩
  have hback : ∀ other other' stream'', h.streams other = some (other', stream'') →
      ∃ stream, (h.fdopendir dir fd stream').streams other = some (other', stream) := by
    intro other other' stream'' hother
    unfold Host.fdopendir
    dsimp only
    by_cases heq : other = dir
    · rw [heq, hstream] at hother
      obtain ⟨rfl, rfl⟩ := Prod.mk.inj (Option.some.inj hother)
      exact ⟨stream', by rw [heq, Function.update_self]⟩
    · exact ⟨stream'', by rw [Function.update_of_ne heq, hother]⟩
  refine ⟨o.rooted, o.rootApart, o.eachFile, o.filesNodup, ?_, ?_, o.dirsNodup, ?_, o.closed⟩
  · intro other other' stream'' hother
    obtain ⟨stream₀, hother₀⟩ := hthere other other' stream'' hother
    obtain ⟨howned, hne, hapart, hone⟩ := o.streams other other' stream₀ hother₀
    refine ⟨howned, hne, hapart, ?_⟩
    intro dir' stream₁ hdir'
    obtain ⟨stream₂, hdir'⟩ := hthere dir' other' stream₁ hdir'
    exact hone dir' stream₂ hdir'
  · intro other hother
    obtain ⟨⟨fd', stream₀⟩, hsome⟩ := Option.isSome_iff_exists.mp (o.eachDir other hother)
    obtain ⟨stream₁, hother'⟩ := hback other fd' stream₀ hsome
    rw [hother']
    rfl
  · intro hok other id hother
    obtain hroot | hfile | ⟨dir', hdir', stream₀, hstream₀⟩ := o.nothingElse hok other id hother
    · exact .inl hroot
    · exact .inr (.inl hfile)
    · exact .inr (.inr ⟨dir', hdir', hback dir' other stream₀ hstream₀⟩)

/-- A file's descriptor closed. -/
theorem closes (o : Owned root files dirs failed h) (hmem : fd ∈ files) :
    Owned root (files.erase fd) dirs failed (h.close fd) := by
  have hroot : root ≠ fd := by
    rintro rfl
    exact o.rootApart hmem
  constructor
  · exact elsewhere hroot o.rooted
  · exact fun hroot => o.rootApart (List.mem_of_mem_erase hroot)
  · intro other hother
    obtain ⟨hne, hother⟩ := (List.Nodup.mem_erase_iff o.filesNodup).mp hother
    exact elsewhere hne (o.eachFile other hother)
  · exact o.filesNodup.erase fd
  · intro dir other stream hstream
    obtain ⟨howned, hne, hapart, hone⟩ := o.streams dir other stream hstream
    refine ⟨elsewhere ?_ howned, hne, ?_, hone⟩
    · rintro rfl
      exact hapart hmem
    · exact fun hother => hapart (List.mem_of_mem_erase hother)
  · exact o.eachDir
  · exact o.dirsNodup
  · intro hok other id hother
    unfold Host.close at hother
    dsimp only at hother
    by_cases heq : other = fd
    · rw [heq, Function.update_self] at hother
      simp at hother
    · rw [Function.update_of_ne heq] at hother
      obtain hroot | hfile | hdir := o.nothingElse hok other id hother
      · exact .inl hroot
      · exact .inr (.inl ((List.Nodup.mem_erase_iff o.filesNodup).mpr ⟨heq, hfile⟩))
      · exact .inr (.inr hdir)
  · intro file hfile
    obtain hfile | hfile := List.mem_append.mp hfile
    · exact o.closed file hfile
    · rw [List.mem_singleton.mp hfile]
      exact o.eachFile fd hmem

/-- A stream closed. -/
theorem closesDir (o : Owned root files dirs failed h) (hmem : dir ∈ dirs) :
    Owned root files (dirs.erase dir) failed (h.closedir dir) := by
  obtain ⟨⟨fd, stream⟩, hstream⟩ := Option.isSome_iff_exists.mp (o.eachDir dir hmem)
  obtain ⟨howned, hroot, hfiles, hone⟩ := o.streams dir fd stream hstream
  have hclosedir : h.closedir dir =
      { h.close fd with streams := Function.update h.streams dir none } := by
    unfold Host.closedir
    rw [hstream]
  rw [hclosedir]
  constructor
  · exact elsewhere (Ne.symm hroot) o.rooted
  · exact o.rootApart
  · intro other hother
    refine elsewhere ?_ (o.eachFile other hother)
    rintro rfl
    exact hfiles hother
  · exact o.filesNodup
  · intro dir' other stream' hstream'
    dsimp only at hstream' ⊢
    by_cases heq : dir' = dir
    · rw [heq, Function.update_self] at hstream'
      simp at hstream'
    · rw [Function.update_of_ne heq] at hstream'
      obtain ⟨howned', hne', hapart', hone'⟩ := o.streams dir' other stream' hstream'
      refine ⟨elsewhere ?_ howned', hne', hapart', ?_⟩
      · rintro rfl
        exact heq (hone dir' stream' hstream')
      · intro dir'' stream'' hstream''
        by_cases heq' : dir'' = dir
        · rw [heq', Function.update_self] at hstream''
          simp at hstream''
        · rw [Function.update_of_ne heq'] at hstream''
          exact hone' dir'' stream'' hstream''
  · intro dir' hdir'
    obtain ⟨hne, hdir'⟩ := (List.Nodup.mem_erase_iff o.dirsNodup).mp hdir'
    dsimp only
    rw [Function.update_of_ne hne]
    exact o.eachDir dir' hdir'
  · exact o.dirsNodup.erase dir
  · intro hok other id hother
    unfold Host.close at hother
    dsimp only at hother
    by_cases heq : other = fd
    · rw [heq, Function.update_self] at hother
      simp at hother
    · rw [Function.update_of_ne heq] at hother
      obtain hroot' | hfile | ⟨dir', hdir', stream', hstream'⟩ := o.nothingElse hok other id hother
      · exact .inl hroot'
      · exact .inr (.inl hfile)
      · have hne : dir' ≠ dir := by
          rintro rfl
          rw [hstream] at hstream'
          exact heq (congrArg Prod.fst (Option.some.inj hstream')).symm
        refine .inr (.inr ⟨dir', (List.Nodup.mem_erase_iff o.dirsNodup).mpr ⟨hne, hdir'⟩, stream',
          ?_⟩)
        dsimp only
        rw [Function.update_of_ne hne]
        exact hstream'
  · intro file hfile
    obtain hfile | hfile := List.mem_append.mp hfile
    · exact o.closed file hfile
    · rw [List.mem_singleton.mp hfile]
      exact howned

theorem foldl_close (o : Owned root files dirs failed h) :
    Owned root [] dirs failed (files.foldl Host.close h) := by
  induction files generalizing h with
  | nil => exact o
  | cons fd files ih =>
    have hclosed := o.closes List.mem_cons_self
    rw [List.erase_cons_head] at hclosed
    exact ih hclosed

theorem foldl_closedir (o : Owned root files dirs failed h) :
    Owned root files [] failed (dirs.foldl Host.closedir h) := by
  induction dirs generalizing h with
  | nil => exact o
  | cons dir dirs ih =>
    have hclosed := o.closesDir List.mem_cons_self
    rw [List.erase_cons_head] at hclosed
    exact ih hclosed

end Owned

/-- What a destroyed tracer leaves: it has closed its own descriptors alone, and all of them unless
a request threw. -/
structure Gone (failed : Bool) (h : Host) : Prop where
  none_left : failed = false → ∀ fd id, h.fds fd ≠ some ⟨id, .tracer⟩
  closed : ∀ file ∈ h.closed, ∃ id, file = some ⟨id, .tracer⟩

theorem Owned.destroy {t : Tracer} {h : Host}
    (o : Owned t.root t.openFiles t.openDirectories t.failed h) :
    Gone t.failed (t.destroy h) := by
  have hleft := o.foldl_close.foldl_closedir
  unfold Tracer.destroy
  constructor
  · intro hok fd id hfd
    unfold Host.close at hfd
    dsimp only at hfd
    by_cases heq : fd = t.root
    · rw [heq, Function.update_self] at hfd
      simp at hfd
    · rw [Function.update_of_ne heq] at hfd
      obtain hroot | hfile | ⟨dir, hdir, _⟩ := hleft.nothingElse hok fd id hfd
      · exact heq hroot
      · simp at hfile
      · simp at hdir
  · intro file hfile
    obtain hfile | hfile := List.mem_append.mp hfile
    · exact hleft.closed file hfile
    · rw [List.mem_singleton.mp hfile]
      exact hleft.rooted

end MakeBelieve.ProcessUtil
