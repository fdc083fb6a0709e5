import Mathlib.Data.List.Sort
import MakeBelieve.ProcessUtil.Descriptors

namespace MakeBelieve.ProcessUtil

open Library

variable {root : Path} {t : Tracer} {h : Host} {c : Calls} {r : FuseRequest}
  {x : Tracer × Host × Reply} {s : State} {n : Notes} {e : Event}

/-! ### What a run keeps -/

/-- A live tracer's descriptors, among which are those of the handles the kernel holds. -/
structure Handed (s : State) : Prop where
  owned : Owned s.tracer.root s.tracer.openFiles s.tracer.openDirectories s.tracer.failed s.host
  files : ∀ fh, s.handles fh = true → fh ∈ s.tracer.openFiles
  dirs : ∀ fh, s.dirs fh = true → fh ∈ s.tracer.openDirectories

/-- What was answered and what was recorded: a path of each file handed out, and no other path
unless a request threw. -/
structure Recorded (root : Path) (s : State) (n : Notes) : Prop where
  recorded : ∀ o ∈ n.opened, ∃ relative, o.names relative = some o.file ∧
    under root relative ∈ s.tracer.readFiles
  read : s.tracer.failed = false → ∀ path ∈ s.tracer.readFiles, ∃ o ∈ n.opened,
    ∃ relative, under root relative = path ∧ o.names relative = some o.file
  held : ∀ fh, s.handles fh = true → ∃ file, n.held fh = some file ∧
    s.host.fds fh = some ⟨file, .tracer⟩ ∧ ∃ o ∈ n.opened, o.file = file

theorem emplaceInode_frame (t : Tracer) (ino : FuseIno) (n : Inode) :
    (t.emplaceInode ino n).readFiles = t.readFiles ∧
      (t.emplaceInode ino n).failed = t.failed ∧ (t.emplaceInode ino n).root = t.root ∧
      (t.emplaceInode ino n).openFiles = t.openFiles ∧
      (t.emplaceInode ino n).openDirectories = t.openDirectories := by
  unfold Tracer.emplaceInode
  split
  · exact ⟨rfl, rfl, rfl, rfl, rfl⟩
  · exact ⟨rfl, rfl, rfl, rfl, rfl⟩

/-- What a request does to the descriptors. -/
theorem Does.owned (hd : Does t h c r x)
    (o : Owned t.root t.openFiles t.openDirectories t.failed h) (hfd : h.fds c.fd = none)
    (hdir : h.streams c.dir = none) (hrelease : ∀ fh, r = .release fh → fh ∈ t.openFiles)
    (hreleasedir : ∀ fh, r = .releasedir fh → fh ∈ t.openDirectories) :
    Owned x.1.root x.1.openFiles x.1.openDirectories x.1.failed x.2.1 := by
  cases hd with
  | nothing => exact o
  | threw => exact o.fail
  | known => exact o
  | numbered => exact o.fail
  | added =>
    obtain ⟨_, hfailed, hroot, hfiles, hdirs⟩ := emplaceInode_frame
      { t with
        byDevIno := Function.update t.byDevIno _ (some t.nextIno)
        nextIno := t.nextIno + 1 } t.nextIno _
    rw [hfailed, hroot, hfiles, hdirs]
    exact o
  | openThrew => exact o.opens hfd _
  | opened => exact o.hands hfd _
  | released => exact o.closes (hrelease _ rfl)
  | opendirThrew => exact o.opensDir hfd _ _
  | openedDir => exact o.handsDir hfd hdir _ _
  | @moved _ _ _ _ _ _ threw _ hstream =>
    cases threw with
    | true =>
      dsimp only
      rw [Bool.or_true]
      exact (o.moves hstream _).fail
    | false =>
      dsimp only
      rw [Bool.or_false]
      exact o.moves hstream _
  | releasedDir => exact o.closesDir (hreleasedir _ rfl)

/-- What a request does to the inode table. -/
theorem Does.table {known : FuseIno → Bool} {given : List (FuseIno × FileId)}
    (hd : Does t h c r x) (htable : Table root t known given)
    (hname : ∀ parent name, r = .lookup parent name → name ≠ ['.']) :
    match x.2.2 with
    | .entry ino id =>
      Table root x.1 (Function.update known ino true) (given ++ [(ino, id)])
    | _ => Table root x.1 known given := by
  cases hd with
  | nothing hquiet =>
    dsimp only
    split
    · exact absurd hquiet id
    · exact htable
  | threw => exact htable.fail
  | known _ _ hino => exact htable.give hino
  | numbered hnew => exact htable.number hnew
  | added hp _ hnew => exact htable.add hp (hname _ _ rfl) hnew
  | openThrew => exact htable.frame rfl rfl rfl (by simp)
  | opened => exact htable.frame rfl rfl rfl id
  | released => exact htable.frame rfl rfl rfl id
  | opendirThrew => exact htable.fail
  | openedDir => exact htable.frame rfl rfl rfl id
  | moved _ hquiet =>
    dsimp only
    split
    · exact absurd hquiet id
    · exact htable.frame rfl rfl rfl fun hok => (Bool.or_eq_false_iff.mp hok).1
  | releasedDir => exact htable.frame rfl rfl rfl id

/-- The state after a request, once its reply is known. -/
theorem told_fields (s : State) (reply : Reply) :
    (s.told reply).tracer = s.tracer ∧ (s.told reply).host = s.host ∧
      (s.told reply).live = s.live ∧
      (∀ fh, (s.told reply).handles fh = true → s.handles fh = true ∨ reply = .opened fh) ∧
      (∀ fh, (s.told reply).dirs fh = true → s.dirs fh = true ∨ reply = .openedDir fh) := by
  cases reply with
  | opened fh =>
    refine ⟨rfl, rfl, rfl, ?_, fun _ hdir => .inl hdir⟩
    intro other hother
    by_cases heq : other = fh
    · exact .inr (heq ▸ rfl)
    · exact .inl (by simpa [State.told, Function.update_of_ne heq] using hother)
  | openedDir fh =>
    refine ⟨rfl, rfl, rfl, fun _ hfh => .inl hfh, ?_⟩
    intro other hother
    by_cases heq : other = fh
    · exact .inr (heq ▸ rfl)
    · exact .inl (by simpa [State.told, Function.update_of_ne heq] using hother)
  | err | done | entry | attr | buf | entries | readlink =>
    exact ⟨rfl, rfl, rfl, fun _ hfh => .inl hfh, fun _ hdir => .inl hdir⟩

theorem asked_fields (s : State) (r : FuseRequest) :
    (s.asked r).live = s.live ∧ (s.asked r).known = s.known ∧
      (∀ fh, (s.asked r).handles fh = true → s.handles fh = true ∧ r ≠ .release fh) ∧
      (∀ fh, (s.asked r).dirs fh = true → s.dirs fh = true ∧ r ≠ .releasedir fh) := by
  cases r with
  | release fh =>
    refine ⟨rfl, rfl, ?_, fun _ hdir => ⟨hdir, by simp⟩⟩
    intro other hother
    by_cases heq : other = fh
    · simp [State.asked, heq] at hother
    · refine ⟨by simpa [State.asked, Function.update_of_ne heq] using hother, ?_⟩
      intro hr
      exact heq (FuseRequest.release.inj hr).symm
  | releasedir fh =>
    refine ⟨rfl, rfl, fun _ hfh => ⟨hfh, by simp⟩, ?_⟩
    intro other hother
    by_cases heq : other = fh
    · simp [State.asked, heq] at hother
    · refine ⟨by simpa [State.asked, Function.update_of_ne heq] using hother, ?_⟩
      intro hr
      exact heq (FuseRequest.releasedir.inj hr).symm
  | lookup | getattr | readlink | «open» | read | opendir | readdir =>
    exact ⟨rfl, rfl, fun _ hfh => ⟨hfh, by simp⟩, fun _ hdir => ⟨hdir, by simp⟩⟩

/-- What a request leaves, whether or not its reply gets through. -/
theorem served_fields (s : State) (r : FuseRequest) (delivered : Bool)
    (x : Tracer × Host × Reply) :
    (s.served r delivered x).tracer = x.1 ∧ (s.served r delivered x).host = x.2.1 ∧
      (s.served r delivered x).live = s.live ∧
      (∀ fh, (s.served r delivered x).handles fh = true →
        s.handles fh = true ∧ r ≠ .release fh ∨ x.2.2 = .opened fh ∧ delivered = true) ∧
      (∀ fh, (s.served r delivered x).dirs fh = true →
        s.dirs fh = true ∧ r ≠ .releasedir fh ∨ x.2.2 = .openedDir fh) := by
  obtain ⟨t, h, reply⟩ := x
  obtain ⟨hlive, _, hhandles, hdirs⟩ := asked_fields s r
  unfold State.served
  dsimp only
  split
  · next hdelivered =>
    obtain ⟨htracer, hhost, hlive', hhandles', hdirs'⟩ :=
      told_fields { s.asked r with tracer := t, host := h } reply
    refine ⟨htracer, hhost, hlive'.trans hlive, ?_, ?_⟩
    · intro fh hfh
      obtain hfh | heq := hhandles' fh hfh
      · exact .inl (hhandles fh hfh)
      · exact .inr ⟨heq, hdelivered⟩
    · intro fh hfh
      obtain hfh | heq := hdirs' fh hfh
      · exact .inl (hdirs fh hfh)
      · exact .inr heq
  · exact ⟨rfl, rfl, hlive, fun fh hfh => .inl (hhandles fh hfh),
      fun fh hfh => .inl (hdirs fh hfh)⟩

/-- What a request does to the sets of what is handed out. -/
theorem Does.handed (hd : Does t h c r x) :
    (∀ fh ∈ t.openFiles, r ≠ .release fh → fh ∈ x.1.openFiles) ∧
      (∀ fh ∈ t.openDirectories, r ≠ .releasedir fh → fh ∈ x.1.openDirectories) ∧
      (∀ fh, x.2.2 = .opened fh → fh ∈ x.1.openFiles) ∧
      (∀ fh, x.2.2 = .openedDir fh → fh ∈ x.1.openDirectories) := by
  have hquiet : ∀ {reply : Reply}, reply.Quiet →
      (∀ fh, reply ≠ .opened fh) ∧ ∀ fh, reply ≠ .openedDir fh := by
    intro reply hquiet
    constructor
    · rintro fh rfl
      exact hquiet
    · rintro fh rfl
      exact hquiet
  cases hd with
  | nothing hq =>
    exact ⟨fun _ hfh _ => hfh, fun _ hfh _ => hfh, fun fh heq => absurd heq ((hquiet hq).1 fh),
      fun fh heq => absurd heq ((hquiet hq).2 fh)⟩
  | threw | known | numbered | openThrew | opendirThrew =>
    exact ⟨fun _ hfh _ => hfh, fun _ hfh _ => hfh, by simp, by simp⟩
  | added =>
    obtain ⟨_, _, _, hfiles, hdirs⟩ := emplaceInode_frame
      { t with
        byDevIno := Function.update t.byDevIno _ (some t.nextIno)
        nextIno := t.nextIno + 1 } t.nextIno _
    dsimp only
    rw [hfiles, hdirs]
    exact ⟨fun _ hfh _ => hfh, fun _ hfh _ => hfh, by simp, by simp⟩
  | opened =>
    refine ⟨fun _ hfh _ => List.mem_insert_of_mem hfh, fun _ hfh _ => hfh, ?_, by simp⟩
    intro fh heq
    rw [← Reply.opened.inj heq]
    exact List.mem_insert_self
  | @released fh =>
    refine ⟨?_, fun _ hfh _ => hfh, by simp, by simp⟩
    intro other hother hne
    apply (List.mem_erase_of_ne _).mpr hother
    rintro rfl
    exact hne rfl
  | openedDir =>
    refine ⟨fun _ hfh _ => hfh, fun _ hfh _ => List.mem_insert_of_mem hfh, by simp, ?_⟩
    intro fh heq
    rw [← Reply.openedDir.inj heq]
    exact List.mem_insert_self
  | moved _ hq =>
    exact ⟨fun _ hfh _ => hfh, fun _ hfh _ => hfh, fun fh heq => absurd heq ((hquiet hq).1 fh),
      fun fh heq => absurd heq ((hquiet hq).2 fh)⟩
  | @releasedDir fh =>
    refine ⟨fun _ hfh _ => hfh, ?_, by simp, by simp⟩
    intro other hother hne
    apply (List.mem_erase_of_ne _).mpr hother
    rintro rfl
    exact hne rfl

/-- What a request does to the paths recorded: one is added for each file handed out, of the path
that names it, and otherwise none unless it threw. -/
structure Records (root : Path) (t : Tracer) (h : Host) (x : Tracer × Host × Reply) : Prop where
  failed : x.1.failed = false → t.failed = false
  keeps : ∀ path ∈ t.readFiles, path ∈ x.1.readFiles
  adds : ∀ fh, x.2.2 = .opened fh → ∃ file relative, x.2.1.fds fh = some ⟨file, .tracer⟩ ∧
    h.world.names relative = some file ∧ x.1.readFiles = t.readFiles ++ [under root relative]
  others : x.1.failed = false → (∀ fh, x.2.2 ≠ .opened fh) → x.1.readFiles = t.readFiles

theorem Does.records {known : FuseIno → Bool} {given : List (FuseIno × FileId)}
    (hd : Does t h c r x) (htable : Table root t known given) : Records root t h x := by
  have hsame : ∀ {t' : Tracer} {h' : Host} {reply : Reply}, t'.readFiles = t.readFiles →
      (t'.failed = false → t.failed = false) → (∀ fh, reply ≠ .opened fh) →
      Records root t h (t', h', reply) := by
    intro t' h' reply hread hfailed hreply
    refine ⟨hfailed, ?_, fun fh heq => absurd heq (hreply fh), fun _ _ => hread⟩
    intro path hpath
    dsimp only
    rw [hread]
    exact hpath
  cases hd with
  | nothing hquiet =>
    apply hsame rfl id
    rintro fh rfl
    exact hquiet
  | threw | numbered | opendirThrew => exact hsame rfl (by simp) (by simp)
  | known | released | openedDir | releasedDir => exact hsame rfl id (by simp)
  | added =>
    obtain ⟨hread, hfailed, _⟩ := emplaceInode_frame
      { t with
        byDevIno := Function.update t.byDevIno _ (some t.nextIno)
        nextIno := t.nextIno + 1 } t.nextIno _
    apply hsame hread _ (by simp)
    intro hok
    rw [hfailed] at hok
    exact hok
  | openThrew =>
    refine ⟨by simp, ?_, by simp, by simp⟩
    exact fun path hpath => List.mem_append_left _ hpath
  | @opened ino n hn hnamed =>
    refine ⟨id, fun path hpath => List.mem_append_left _ hpath, ?_, ?_⟩
    · intro fh heq
      obtain rfl := Reply.opened.inj heq
      refine ⟨n.id, n.relative, by simp [Host.opened], hnamed, ?_⟩
      rw [← htable.paths ino n hn]
    · intro _ hother
      exact absurd rfl (hother c.fd)
  | moved _ hquiet =>
    refine hsame ?_ ?_ ?_
    · rfl
    · intro hok
      exact (Bool.or_eq_false_iff.mp hok).1
    · rintro fh rfl
      exact hquiet

/-- A request leaves the files handed out as they are, but for one it releases. -/
theorem Does.fds (hd : Does t h c r x)
    (o : Owned t.root t.openFiles t.openDirectories t.failed h) (hfd : h.fds c.fd = none)
    (hreleasedir : ∀ fh, r = .releasedir fh → fh ∈ t.openDirectories) {fd : Fd}
    (hmem : fd ∈ t.openFiles) (hne : r ≠ .release fd) : x.2.1.fds fd = h.fds fd := by
  have hopened : fd ≠ c.fd := by
    rintro rfl
    exact (o.free hfd).2.1 hmem
  cases hd with
  | nothing | threw | known | numbered | added | moved => rfl
  | openThrew | opened | opendirThrew | openedDir => exact Function.update_of_ne hopened _ _
  | @released fh =>
    apply Function.update_of_ne
    rintro rfl
    exact hne rfl
  | @releasedDir fh =>
    obtain ⟨⟨fd', stream⟩, hstream⟩ :=
      Option.isSome_iff_exists.mp (o.eachDir fh (hreleasedir fh rfl))
    obtain ⟨_, _, hapart, _⟩ := o.streams fh fd' stream hstream
    unfold Host.closedir
    rw [hstream]
    apply Function.update_of_ne
    rintro rfl
    exact hapart hmem

/-! ### Runs -/

structure Inv (root : Path) (s : State) (n : Notes) : Prop where
  table : Table root s.tracer s.known n.given
  handed : s.live = true → Handed s
  gone : s.live = false → Gone s.tracer.failed s.host ∧ ∀ fh, s.handles fh = false
  recorded : Recorded root s n

theorem known_untold (s : State) (r : FuseRequest) (delivered : Bool) (ino : FuseIno)
    (hino : (s.served r delivered x).known ino = true) :
    s.known ino = true ∨ ∃ id, x.2.2 = .entry ino id := by
  obtain ⟨t, h, reply⟩ := x
  have hasked := (asked_fields s r).2.1
  unfold State.served at hino
  dsimp only at hino
  split at hino
  · cases reply with
    | entry ino' id =>
      by_cases heq : ino = ino'
      · exact .inr ⟨id, heq ▸ rfl⟩
      · left
        simp only [State.told, Function.update_of_ne heq] at hino
        rw [hasked] at hino
        exact hino
    | err | done | attr | opened | openedDir | buf | entries | readlink =>
      left
      rw [← hasked]
      exact hino
  · left
    rw [← hasked]
    exact hino

theorem Inv.request (i : Inv root s n) {delivered : Bool}
    (he : s.enabled (.request r c delivered)) :
    Inv root (s.step (.request r c delivered)) (note s (.request r c delivered) n) := by
  obtain ⟨hlive, hasks, hfd, hdir⟩ := he
  obtain ⟨howned, hfiles, hdirs⟩ := i.handed hlive
  have hd := serve_does s.tracer s.host c r
  have hname : ∀ parent name, r = .lookup parent name → name ≠ ['.'] := by
    rintro parent name rfl
    exact hasks.2
  have hrelease : ∀ fh, r = .release fh → fh ∈ s.tracer.openFiles := by
    rintro fh rfl
    exact hfiles fh hasks
  have hreleasedir : ∀ fh, r = .releasedir fh → fh ∈ s.tracer.openDirectories := by
    rintro fh rfl
    exact hdirs fh hasks
  have htable := hd.table i.table hname
  have hrecords := hd.records i.table
  obtain ⟨hkeepsFile, hkeepsDir, hnewFile, hnewDir⟩ := hd.handed
  obtain ⟨htracer, hhost, hlive', hhandles', hdirs'⟩ :=
    served_fields s r delivered (serve s.tracer s.host c r)
  have hknown := known_untold (x := serve s.tracer s.host c r) s r delivered
  dsimp only [State.step, note]
  generalize serve s.tracer s.host c r = x at *
  obtain ⟨t, h, reply⟩ := x
  dsimp only at *
  constructor
  · rw [htracer]
    cases reply with
    | entry ino id =>
      apply htable.untold
      intro other hother
      obtain hother | ⟨id', heq⟩ := hknown other hother
      · by_cases heq : other = ino
        · rw [heq, Function.update_self]
        · rw [Function.update_of_ne heq]
          exact hother
      · rw [(Reply.entry.inj heq).1, Function.update_self]
    | opened fh =>
      have hgiven : (n.replied s.host h (.opened fh) delivered).given = n.given := by
        unfold Notes.replied
        dsimp only
        split
        · rfl
        · rfl
      rw [hgiven]
      apply htable.untold
      intro other hother
      obtain hother | ⟨id', heq⟩ := hknown other hother
      · exact hother
      · simp at heq
    | err | done | attr | openedDir | buf | entries | readlink =>
      apply htable.untold
      intro other hother
      obtain hother | ⟨id', heq⟩ := hknown other hother
      · exact hother
      · simp at heq
  · intro _
    constructor
    · rw [htracer, hhost]
      exact hd.owned howned hfd hdir hrelease hreleasedir
    · intro fh hfh
      rw [htracer]
      obtain ⟨hold, hne⟩ | ⟨hnew, _⟩ := hhandles' fh hfh
      · exact hkeepsFile fh (hfiles fh hold) hne
      · exact hnewFile fh hnew
    · intro fh hfh
      rw [htracer]
      obtain ⟨hold, hne⟩ | hnew := hdirs' fh hfh
      · exact hkeepsDir fh (hdirs fh hold) hne
      · exact hnewDir fh hnew
  · intro hdead
    rw [hlive', hlive] at hdead
    simp at hdead
  · by_cases hreply : ∃ fh, reply = .opened fh
    · obtain ⟨fh, rfl⟩ := hreply
      obtain ⟨file, relative, hfile, hnamed, hread⟩ := hrecords.adds fh rfl
      dsimp only at hfile hread
      have hnotes : n.replied s.host h (.opened fh) delivered =
          { n with
            opened := n.opened ++ [⟨file, s.host.world.names⟩]
            held := if delivered then Function.update n.held fh (some file) else n.held } := by
        simp only [Notes.replied, hfile]
      rw [hnotes]
      constructor
      · intro o ho
        rw [htracer, hread]
        obtain ho | ho := List.mem_append.mp ho
        · obtain ⟨relative', hnamed', hmem⟩ := i.recorded.recorded o ho
          exact ⟨relative', hnamed', List.mem_append_left _ hmem⟩
        · rw [List.mem_singleton.mp ho]
          exact ⟨relative, hnamed, List.mem_append_right _ (List.mem_singleton_self _)⟩
      · intro hok path hpath
        rw [htracer] at hok hpath
        rw [hread] at hpath
        obtain hpath | hpath := List.mem_append.mp hpath
        · obtain ⟨o, ho, hrelative⟩ := i.recorded.read (hrecords.failed hok) path hpath
          exact ⟨o, List.mem_append_left _ ho, hrelative⟩
        · rw [List.mem_singleton.mp hpath]
          exact ⟨_, List.mem_append_right _ (List.mem_singleton_self _), relative, rfl, hnamed⟩
      · intro other hother
        rw [hhost]
        by_cases heq : other = fh ∧ delivered = true
        · obtain ⟨rfl, rfl⟩ := heq
          refine ⟨file, by simp, hfile, ⟨file, s.host.world.names⟩, ?_, rfl⟩
          exact List.mem_append_right _ (List.mem_singleton_self _)
        · obtain ⟨hold, hne⟩ | ⟨hnew, hdelivered⟩ := hhandles' other hother
          · obtain ⟨file', hheld, hfile', o, ho, rfl⟩ := i.recorded.held other hold
            refine ⟨o.file, ?_, ?_, o, List.mem_append_left _ ho, rfl⟩
            · dsimp only
              split
              · next hdelivered =>
                have hne' : other ≠ fh := fun heq' => heq ⟨heq', hdelivered⟩
                rw [Function.update_of_ne hne']
                exact hheld
              · exact hheld
            · rw [← hfile']
              exact hd.fds howned hfd hreleasedir (hfiles other hold) hne
          · exact absurd ⟨(Reply.opened.inj hnew).symm, hdelivered⟩ heq
    · have hquiet : ∀ fh, reply ≠ .opened fh := fun fh heq => hreply ⟨fh, heq⟩
      have hopened : (n.replied s.host h reply delivered).opened = n.opened := by
        cases reply with
        | opened fh => exact absurd rfl (hquiet fh)
        | err | done | entry | attr | openedDir | buf | entries | readlink => rfl
      have hheld : (n.replied s.host h reply delivered).held = n.held := by
        cases reply with
        | opened fh => exact absurd rfl (hquiet fh)
        | err | done | entry | attr | openedDir | buf | entries | readlink => rfl
      constructor
      · intro o ho
        rw [hopened] at ho
        rw [htracer]
        obtain ⟨relative, hnamed, hmem⟩ := i.recorded.recorded o ho
        exact ⟨relative, hnamed, hrecords.keeps _ hmem⟩
      · intro hok path hpath
        rw [htracer] at hok hpath
        rw [hopened]
        rw [hrecords.others hok hquiet] at hpath
        exact i.recorded.read (hrecords.failed hok) path hpath
      · intro fh hfh
        rw [hhost, hheld, hopened]
        obtain ⟨hold, hne⟩ | ⟨hnew, _⟩ := hhandles' fh hfh
        · obtain ⟨file, hnote, hfile, ho⟩ := i.recorded.held fh hold
          refine ⟨file, hnote, ?_, ho⟩
          rw [← hfile]
          exact hd.fds howned hfd hreleasedir (hfiles fh hold) hne
        · exact absurd hnew (hquiet fh)

/-- What only touches the host, apart from the tracer's descriptors. -/
theorem Inv.host (i : Inv root s n) {h : Host}
    (howned : ∀ {root files dirs failed}, Owned root files dirs failed s.host →
      Owned root files dirs failed h)
    (hgone : ∀ {failed}, Gone failed s.host → Gone failed h)
    (hfds : ∀ fd id, s.host.fds fd = some ⟨id, .tracer⟩ → h.fds fd = some ⟨id, .tracer⟩) :
    Inv root { s with host := h } n := by
  refine ⟨i.table, ?_, ?_, i.recorded.recorded, i.recorded.read, ?_⟩
  · intro hlive
    obtain ⟨o, hfiles, hdirs⟩ := i.handed hlive
    exact ⟨howned o, hfiles, hdirs⟩
  · intro hdead
    obtain ⟨g, hhandles⟩ := i.gone hdead
    exact ⟨hgone g, hhandles⟩
  · intro fh hfh
    obtain ⟨file, hheld, hfile, ho⟩ := i.recorded.held fh hfh
    exact ⟨file, hheld, hfds fh file hfile, ho⟩

theorem Gone.rest {failed : Bool} {fd : Fd} {file : Option OpenFile} (g : Gone failed h)
    (hfile : ∀ id, file ≠ some ⟨id, .tracer⟩) :
    Gone failed { h with fds := Function.update h.fds fd file } := by
  constructor
  · intro hok other id hother
    dsimp only at hother
    by_cases heq : other = fd
    · rw [heq, Function.update_self] at hother
      exact hfile id hother
    · rw [Function.update_of_ne heq] at hother
      exact g.none_left hok other id hother
  · exact g.closed

theorem Inv.rest (i : Inv root s n) {fd : Fd} {file : Option OpenFile}
    (hfd : ∀ id, s.host.fds fd ≠ some ⟨id, .tracer⟩) (hfile : ∀ id, file ≠ some ⟨id, .tracer⟩) :
    Inv root { s with host := { s.host with fds := Function.update s.host.fds fd file } } n := by
  apply i.host
  · exact fun o => o.rest hfd hfile
  · exact fun g => g.rest hfile
  · intro other id hother
    have hne : other ≠ fd := by
      rintro rfl
      exact hfd id hother
    dsimp only
    rw [Function.update_of_ne hne]
    exact hother

theorem Inv.step (i : Inv root s n) (he : s.enabled e) : Inv root (s.step e) (note s e n) := by
  cases e with
  | request r c delivered => exact i.request he
  | world w =>
    apply i.host
    · intro root files dirs failed o
      exact ⟨o.rooted, o.rootApart, o.eachFile, o.filesNodup, o.streams, o.eachDir, o.dirsNodup,
        o.nothingElse, o.closed⟩
    · exact fun g => ⟨g.none_left, g.closed⟩
    · exact fun _ _ hfd => hfd
  | opens fd file =>
    have hfree : s.host.fds fd = none := he
    exact i.rest (by simp [hfree]) (by simp)
  | closes fd =>
    obtain ⟨file, hfile⟩ := he
    exact i.rest (by simp [hfile]) (by simp)
  | destroy =>
    have howned := (i.handed he).owned
    refine ⟨i.table, ?_, ?_, i.recorded.recorded, i.recorded.read, ?_⟩
    · intro hlive
      simp [State.step] at hlive
    · intro _
      exact ⟨howned.destroy, fun _ => rfl⟩
    · intro fh hfh
      simp [State.step] at hfh

theorem Inv.start (h : Starts root s) : Inv root s {} := by
  obtain ⟨rootFd, id, host, rfl, hroot, hown, hstreams, hclosed⟩ := h
  constructor
  · exact .start rootFd root id
  · intro _
    constructor
    · constructor
      · exact ⟨id, hroot⟩
      · simp [Tracer.new]
      · simp [Tracer.new]
      · exact List.nodup_nil
      · intro dir fd stream hstream
        simp [hstreams dir] at hstream
      · simp [Tracer.new]
      · exact List.nodup_nil
      · exact fun _ fd id' hfd => .inl (hown fd id' hfd)
      · intro file hfile
        simp [hclosed] at hfile
    · intro fh hfh
      simp at hfh
    · intro fh hfh
      simp at hfh
  · intro hdead
    simp at hdead
  · constructor
    · intro o ho
      simp at ho
    · intro _ path hpath
      simp [Tracer.new] at hpath
    · intro fh hfh
      simp at hfh

theorem inv_reachable {s : State × Notes} (h : (tracing root).Reachable (fun _ _ => True) s) :
    Inv root s.1 s.2 := by
  apply h.invariant
  · intro s hs
    obtain ⟨s, n⟩ := s
    obtain ⟨hs, hn⟩ := hs
    obtain rfl : n = {} := hn
    exact .start hs
  · intro s e hs he _
    exact hs.step he

end MakeBelieve.ProcessUtil
