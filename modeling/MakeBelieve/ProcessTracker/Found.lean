import MakeBelieve.ProcessTracker.Host

namespace MakeBelieve.ProcessTracker

open Library

variable {me : Process} {s : State} {e : Event} {h : Host} {p q p₀ : Process} {f : FindId}

/-! ### What is found -/

/-- The record of a command is there. -/
def State.Recorded (s : State) (command : Process) : Prop :=
  ∃ entry ∈ s.records, s.addedFor entry.1 = command

/-- The next read of a find is of this id. -/
def Find.At (id : Pid) : Find → Prop
  | .asked thread | .started thread => thread = id
  | .climbing pid _ => pid = id
  | .comparing _ stat _ => stat.parent = id
  | _ => False

/-- No id is reused as a find is about to read it; and as `add` and `remove` ask for, a command has
its record for as long as it or anything it started is there and may ask. -/
def orderly (s : State) : Event → Prop
  | .forks _ _ id | .launches _ id | .clones _ id => ∀ f, ¬ (s.finds f).At id
  | .asks _ p _ => ∀ c, s.host.command p = some c → s.Recorded c
  | .removes token => ∀ p, s.host.born p = true →
      s.host.command p = some (s.addedFor token) → s.host.Gone p
  | _ => True

/-- Whoever has the id is of the same command as the requester, or of none like it. -/
structure Climbs (me : Process) (h : Host) (p₀ : Process) (pid : Pid) : Prop where
  alike : ∀ q, h.threads pid = some q → h.command q = h.command p₀ ∧ pid = h.pid q
  high : h.command p₀ = none ∨ 1 < pid ∧ pid ≠ h.pid me

/-- It has climbed past its command, whose record is not there any more. -/
structure Passed (me : Process) (h : Host) (p₀ : Process) (pid : Pid) : Prop where
  own : pid = h.pid me
  gone : h.Gone p₀

/-- The process whose stat was read. -/
structure Compares (me : Process) (h : Host) (p₀ q : Process) (pid : Pid) (stat : Stat) : Prop where
  born : h.born q = true
  alike : h.command q = h.command p₀
  pid : pid = h.pid q
  startTime : stat.startTime = h.started q
  inside : h.command q ≠ some q → Climbs me h p₀ stat.parent
  top : h.command q = some q → stat.parent = h.pid me

def Outside (h : Host) (p₀ : Process) : Prop := h.command p₀ = none ∨ h.Gone p₀

/-- What a find for `p₀` has come to. -/
def Follows (me : Process) (s : State) (p₀ : Process) : Find → Prop
  | .unborn => True
  | .asked thread | .started thread => ∀ q, s.host.threads thread = some q → q = p₀
  | .climbing pid _ => Climbs me s.host p₀ pid ∨ Passed me s.host p₀ pid
  | .comparing pid stat _ => ∃ q, Compares me s.host p₀ q pid stat
  | .found output => ∃ c, s.host.command p₀ = some c ∧ s.output c = some output
  | .missed .empty | .missed .top => Outside s.host p₀
  | .missed _ => True

def Find.IsAsked : Find → Prop
  | .unborn => False
  | _ => True

/-- A record is of its command. -/
structure RecordOf (h : Host) (outputs : Process → Option Path) (c : Process)
    (record : Record) : Prop where
  born : h.born c = true
  command : h.command c = some c
  output : outputs c = some record.output
  pid : record.pid = h.pid c
  startTime : record.startTime = h.started c

structure Inv (me : Process) (s : State) : Prop where
  host : s.host.Sound me
  tokens : ∀ entry ∈ s.records, entry.1 ≤ s.lastToken
  records : ∀ entry ∈ s.records, RecordOf s.host s.output (s.addedFor entry.1) entry.2
  asked : ∀ f, (s.finds f).IsAsked → s.host.born (s.requester f) = true
  covered : ∀ f, (s.finds f).IsAsked → ∀ c, s.host.command (s.requester f) = some c →
    s.Recorded c ∨ s.host.Gone (s.requester f)
  finds : ∀ f, Follows me s (s.requester f) (s.finds f)

/-! #### The kernel's steps -/

section

variable {h' : Host} {taken : Option Pid}

theorem Climbs.evolve {pid : Pid} (hc : Climbs me h p₀ pid) (k : h.Sound me)
    (v : h.Evolves taken h') (hp₀ : h.born p₀ = true) (hpid : taken ≠ some pid) :
    Climbs me h' p₀ pid := by
  constructor
  · intro q hq
    have hq := v.threads pid q hpid hq
    have hqborn := (k.born pid q hq).1
    rw [v.command q hqborn, v.command p₀ hp₀, v.pid q hqborn]
    exact hc.alike q hq
  · rw [v.command p₀ hp₀, v.pid me k.own.2.1]
    exact hc.high

theorem Follows.evolve {find : Find} (hf : Follows me s p₀ find) (k : s.host.Sound me)
    (v : s.host.Evolves taken h') (hp₀ : find.IsAsked → s.host.born p₀ = true)
    (hat : ∀ id, taken = some id → ¬ find.At id) :
    Follows me { s with host := h' } p₀ find := by
  have hnot : ∀ id, find.At id → taken ≠ some id := fun id hid heq => hat id heq hid
  have houtside : s.host.born p₀ = true → Outside s.host p₀ → Outside h' p₀ := by
    intro hborn houtside
    refine houtside.imp ?_ (v.gone p₀ hborn)
    intro hnone
    rw [v.command p₀ hborn]
    exact hnone
  cases find with
  | unborn => trivial
  | asked thread | started thread => exact fun q hq => hf q (v.threads _ q (hnot _ rfl) hq)
  | climbing pid depth =>
    have hborn := hp₀ trivial
    refine hf.imp (fun hc => hc.evolve k v hborn (hnot _ rfl)) ?_
    rintro ⟨hown, hgone⟩
    refine ⟨?_, v.gone p₀ hborn hgone⟩
    change pid = h'.pid me
    rw [v.pid me k.own.2.1]
    exact hown
  | comparing pid stat depth =>
    have hborn := hp₀ trivial
    obtain ⟨q, hq⟩ := hf
    refine ⟨q, v.born q hq.born, ?_, ?_, ?_, ?_, ?_⟩
    · exact (v.command q hq.born).trans (hq.alike.trans (v.command p₀ hborn).symm)
    · exact hq.pid.trans (v.pid q hq.born).symm
    · exact hq.startTime.trans (v.started q hq.born).symm
    · intro hne
      have hne : s.host.command q ≠ some q := fun heq => hne ((v.command q hq.born).trans heq)
      exact (hq.inside hne).evolve k v hborn (hnot _ rfl)
    · intro heq
      have heq : s.host.command q = some q := (v.command q hq.born).symm.trans heq
      exact (hq.top heq).trans (v.pid me k.own.2.1).symm
  | found output =>
    obtain ⟨c, hcommand, houtput⟩ := hf
    exact ⟨c, (v.command p₀ (hp₀ trivial)).trans hcommand, houtput⟩
  | missed why =>
    cases why with
    | empty | top => exact houtside (hp₀ trivial) hf
    | gone | deep => trivial

theorem RecordOf.evolve {output : Process → Option Path} {c : Process} {record : Record}
    (hr : RecordOf h output c record) (v : h.Evolves taken h') : RecordOf h' output c record :=
  ⟨v.born c hr.born, (v.command c hr.born).trans hr.command, hr.output,
    hr.pid.trans (v.pid c hr.born).symm, hr.startTime.trans (v.started c hr.born).symm⟩

theorem Inv.evolve (i : Inv me s) (hsound : h'.Sound me) (v : s.host.Evolves taken h')
    (hat : ∀ id, taken = some id → ∀ f, ¬ (s.finds f).At id) : Inv me { s with host := h' } := by
  constructor
  · exact hsound
  · exact i.tokens
  · exact fun entry hentry => (i.records entry hentry).evolve v
  · exact fun f hasked => v.born _ (i.asked f hasked)
  · intro f hasked c hcommand
    have hborn := i.asked f hasked
    have hcommand : s.host.command (s.requester f) = some c :=
      (v.command _ hborn).symm.trans hcommand
    exact (i.covered f hasked c hcommand).imp id (v.gone _ hborn)
  · intro f
    exact (i.finds f).evolve i.host v (i.asked f) fun id heq => hat id heq f

end

/-! #### The tracker's steps -/

theorem Follows.congr {t : State} {find : Find} (hf : Follows me s p₀ find) (hhost : t.host = s.host)
    (houtput : ∀ c output, s.output c = some output → t.output c = some output) :
    Follows me t p₀ find := by
  cases find with
  | unborn => trivial
  | asked thread | started thread | climbing pid depth | comparing pid stat depth =>
    simpa only [Follows, hhost] using hf
  | found output =>
    obtain ⟨c, hcommand, hc⟩ := hf
    exact ⟨c, by rw [hhost]; exact hcommand, houtput c output hc⟩
  | missed why =>
    cases why with
    | empty | top => simpa only [Follows, hhost] using hf
    | gone | deep => trivial

theorem Inv.add (i : Inv me s) {c : Process} (output : Path) (hthere : s.host.There c)
    (hcommand : s.host.command c = some c) (hnew : s.output c = none) : Inv me (s.add c output) := by
  have hborn := i.host.there_born hthere
  have htoken : ∀ entry ∈ s.records, entry.1 ≠ s.lastToken + 1 := by
    intro entry hentry
    have hle := i.tokens entry hentry
    exact Nat.ne_of_lt (Nat.lt_succ_of_le hle)
  have houtput : ∀ c' output', s.output c' = some output' →
      (s.add c output).output c' = some output' := by
    intro c' output' hc'
    have hne : c' ≠ c := by
      rintro rfl
      simp [hnew] at hc'
    simpa only [State.add, Function.update_of_ne hne] using hc'
  constructor
  · exact i.host
  · intro entry hentry
    obtain rfl | hentry := List.mem_cons.mp hentry
    · exact Nat.le_refl _
    · exact Nat.le_succ_of_le (i.tokens entry hentry)
  · intro entry hentry
    obtain rfl | hentry := List.mem_cons.mp hentry
    · have hadded : (s.add c output).addedFor (s.lastToken + 1) = c := by simp [State.add]
      rw [hadded]
      refine ⟨hborn, hcommand, by simp [State.add], rfl, ?_⟩
      exact i.host.started c hthere
    · have hr := i.records entry hentry
      have hadded : (s.add c output).addedFor entry.1 = s.addedFor entry.1 := by
        simp only [State.add, Function.update_of_ne (htoken entry hentry)]
      rw [hadded]
      exact ⟨hr.born, hr.command, houtput _ _ hr.output, hr.pid, hr.startTime⟩
  · exact i.asked
  · intro f hasked c' hc'
    refine (i.covered f hasked c' hc').imp ?_ id
    rintro ⟨entry, hentry, hadded⟩
    refine ⟨entry, List.mem_cons_of_mem _ hentry, ?_⟩
    simpa only [State.add, Function.update_of_ne (htoken entry hentry)] using hadded
  · exact fun f => (i.finds f).congr rfl houtput

theorem Inv.remove (i : Inv me s) {token : Token}
    (hgone : ∀ p, s.host.born p = true → s.host.command p = some (s.addedFor token) →
      s.host.Gone p) : Inv me (s.remove token) := by
  have hmem : ∀ entry ∈ (s.remove token).records, entry ∈ s.records :=
    fun entry hentry => (List.mem_filter.mp hentry).1
  constructor
  · exact i.host
  · exact fun entry hentry => i.tokens entry (hmem entry hentry)
  · exact fun entry hentry => i.records entry (hmem entry hentry)
  · exact i.asked
  · intro f hasked c hc
    obtain ⟨entry, hentry, hadded⟩ | hgone' := i.covered f hasked c hc
    · by_cases heq : entry.1 = token
      · right
        apply hgone _ (i.asked f hasked)
        rw [← heq, hadded]
        exact hc
      · exact .inl ⟨entry, List.mem_filter.mpr ⟨hentry, by simpa using heq⟩, hadded⟩
    · exact .inr hgone'
  · exact fun f => (i.finds f).congr rfl fun _ _ h => h

/-- A find moves on. -/
theorem Inv.setFind (i : Inv me s) {find : Find} (hasked : (s.finds f).IsAsked)
    (hf : Follows me s (s.requester f) find) : Inv me (s.setFind f find) := by
  have hwas : ∀ g, ((s.setFind f find).finds g).IsAsked → (s.finds g).IsAsked := by
    intro g hg
    by_cases heq : g = f
    · rw [heq]
      exact hasked
    · simpa only [State.setFind, Function.update_of_ne heq] using hg
  constructor
  · exact i.host
  · exact i.tokens
  · exact i.records
  · exact fun g hg => i.asked g (hwas g hg)
  · exact fun g hg => i.covered g (hwas g hg)
  · intro g
    by_cases heq : g = f
    · subst heq
      simp only [State.setFind, Function.update_self]
      exact hf.congr rfl fun _ _ h => h
    · simp only [State.setFind, Function.update_of_ne heq]
      exact (i.finds g).congr rfl fun _ _ h => h

theorem Inv.ask (i : Inv me s) {thread : Pid} (hunborn : ¬ (s.finds f).IsAsked)
    (hp : s.host.threads thread = some p)
    (hrecorded : ∀ c, s.host.command p = some c → s.Recorded c) :
    Inv me
      { s.setFind f (.asked thread) with requester := Function.update s.requester f p } := by
  constructor
  · exact i.host
  · exact i.tokens
  · exact i.records
  · intro g hg
    by_cases heq : g = f
    · subst heq
      simp only [Function.update_self]
      exact (i.host.born thread p hp).1
    · simp only [State.setFind, Function.update_of_ne heq] at hg ⊢
      exact i.asked g hg
  · intro g hg c hc
    by_cases heq : g = f
    · subst heq
      simp only [Function.update_self] at hc
      exact .inl (hrecorded c hc)
    · simp only [State.setFind, Function.update_of_ne heq] at hg hc ⊢
      exact i.covered g hg c hc
  · intro g
    by_cases heq : g = f
    · subst heq
      simp only [State.setFind, Function.update_self]
      intro q hq
      exact Option.some.inj (hq.symm.trans hp)
    · simp only [State.setFind, Function.update_of_ne heq]
      exact (i.finds g).congr rfl fun _ _ h => h

/-! #### The steps of a find -/

theorem climbs_requester {thread : Pid} (k : h.Sound me) (hp : h.threads thread = some p) :
    Climbs me h p (h.pid p) := by
  obtain ⟨hborn, hthere⟩ := k.born thread p hp
  constructor
  · intro q hq
    obtain rfl := Option.some.inj (hq.symm.trans hthere)
    exact ⟨rfl, rfl⟩
  · cases hcommand : h.command p with
    | none => exact .inl rfl
    | some c =>
      right
      refine ⟨(k.command p c hborn hcommand).2.2, ?_⟩
      intro heq
      have hsame : some p = some me := hthere.symm.trans (heq ▸ k.own.1)
      obtain rfl := Option.some.inj hsame
      simp [k.own.2.2] at hcommand

/-- Its parent is of the same command, unless it is the command's own. -/
theorem climbs_parent (k : h.Sound me) (hq : h.There q) (halike : h.command q = h.command p₀)
    (hinside : h.command q ≠ some q) :
    Climbs me h p₀ (((h.parent q).map h.pid).getD 0) := by
  cases hparent : h.parent q with
  | none =>
    have hnone := k.orphan q (k.there_born hq) hparent
    constructor
    · intro r hr
      have hr : h.threads 0 = some r := hr
      simp [k.zero] at hr
    · exact .inl (halike.symm.trans hnone)
  | some r =>
    obtain ⟨hr, hcommand⟩ := k.parent q r hq hparent
    have hcommand := hcommand.resolve_left hinside
    have hclimbs := climbs_requester k hr
    refine ⟨?_, ?_⟩
    · intro r' hr'
      obtain ⟨hcommand', hpid⟩ := hclimbs.alike r' hr'
      exact ⟨hcommand'.trans (hcommand.trans halike), hpid⟩
    · exact hclimbs.high.imp (fun hnone => (hcommand.trans halike).symm.trans hnone) id

theorem Inv.follows (i : Inv me s) {find : Find} (hfind : s.finds f = find) :
    Follows me s (s.requester f) find := hfind ▸ i.finds f

theorem isAsked_of {find : Find} (hfind : s.finds f = find) (hasked : find.IsAsked) :
    (s.finds f).IsAsked := hfind ▸ hasked

theorem Inv.begin (i : Inv me s) : Inv me (s.begin f) := by
  unfold State.begin
  split
  · next thread hfind =>
    have hf := i.follows hfind
    have hasked := isAsked_of hfind trivial
    apply i.setFind hasked
    split
    · next hempty =>
      have hunrecorded : ∀ c, ¬ s.Recorded c := by
        rintro c ⟨entry, hentry, _⟩
        simp [hempty] at hentry
      change Outside s.host _
      cases hcommand : s.host.command (s.requester f) with
      | none => exact .inl hcommand
      | some c => exact .inr ((i.covered f hasked c hcommand).resolve_left (hunrecorded c))
    · exact hf
  · exact i

theorem Inv.readStatus (i : Inv me s) (fails : Bool) : Inv me (s.readStatus f fails) := by
  unfold State.readStatus
  split
  · next thread hfind =>
    have hf := i.follows hfind
    have hasked := isAsked_of hfind trivial
    split
    · next _ _ pid hpid =>
      apply i.setFind hasked
      obtain ⟨q, hq, rfl⟩ := Option.map_eq_some_iff.mp hpid
      rw [← hf q hq]
      exact .inl (climbs_requester i.host hq)
    · exact i.setFind hasked trivial
  · exact i

theorem Inv.readStat (i : Inv me s) (fails : Bool) : Inv me (s.readStat me f fails) := by
  unfold State.readStat
  split
  · next pid depth hfind =>
    have hf := i.follows hfind
    have hasked := isAsked_of hfind trivial
    split
    · next htop =>
      apply i.setFind hasked
      obtain hclimbs | hpassed := hf
      · refine .inl (hclimbs.high.resolve_right ?_)
        rintro ⟨hhigh, hne⟩
        obtain hle | heq := htop
        · exact Nat.not_lt_of_le hle hhigh
        · exact hne heq
      · exact .inr hpassed.gone
    · next hinside =>
      split
      · exact i.setFind hasked trivial
      · split
        · next _ _ stat hstat =>
          apply i.setFind hasked
          obtain hclimbs | hpassed := hf
          · obtain ⟨q, hq, rfl⟩ := Option.map_eq_some_iff.mp hstat
            obtain ⟨halike, hpid⟩ := hclimbs.alike q hq
            obtain ⟨hborn, hthere⟩ := i.host.born pid q hq
            refine ⟨q, hborn, halike, hpid, ?_, ?_, ?_⟩
            · change s.host.startTime pid = _
              rw [hpid]
              exact i.host.started q hthere
            · exact climbs_parent i.host hthere halike
            · intro hcommand
              change ((s.host.parent q).map s.host.pid).getD 0 = _
              rw [i.host.launched q hborn hcommand]
              rfl
          · exact absurd (.inr hpassed.own) hinside
        · exact i.setFind hasked trivial
  · exact i

theorem Inv.compare (i : Inv me s) {entry : Option (Token × Record)}
    (he : enabled me s (.compares f entry)) : Inv me (s.compare f entry) := by
  obtain ⟨pid, stat, depth, hfind, hentry⟩ := he
  obtain ⟨q, hq⟩ := i.follows hfind
  have hasked := isAsked_of hfind trivial
  simp only [State.compare, hfind]
  cases entry with
  | some entry =>
    obtain ⟨hmem, hpid, hstart⟩ := hentry
    have hr := i.records entry hmem
    -- The id and the start time tell it from whoever else has had the id.
    have hsame : s.addedFor entry.1 = q := i.host.unique _ _ hr.born hq.born
      (hr.pid.symm.trans (hpid.trans hq.pid)) (hr.startTime.symm.trans (hstart.trans hq.startTime))
    apply i.setFind hasked
    rw [hsame] at hr
    exact ⟨q, hq.alike.symm.trans hr.command, hr.output⟩
  | none =>
    apply i.setFind hasked
    by_cases hcommand : s.host.command q = some q
    · right
      refine ⟨hq.top hcommand, ?_⟩
      refine (i.covered f hasked q (hq.alike.symm.trans hcommand)).resolve_left ?_
      rintro ⟨entry, hmem, hadded⟩
      have hr := i.records entry hmem
      rw [hadded] at hr
      exact hentry entry hmem
        ⟨hr.pid.trans hq.pid.symm, hr.startTime.trans hq.startTime.symm⟩
    · exact .inl (hq.inside hcommand)

theorem Inv.step (i : Inv me s) (he : enabled me s e) (hok : orderly s e) :
    Inv me (step me s e) := by
  have hsound := step_host i.host he
  have hevolves := evolves he
  cases e with
  | ticks | threadEnds _ _ | exits _ _ | reaps _ =>
    exact i.evolve hsound hevolves fun id heq => by cases heq
  | forks _ _ id | launches _ id | clones _ id =>
    apply i.evolve hsound hevolves
    intro id' heq
    obtain rfl := Option.some.inj heq
    exact hok
  | adds c output => exact i.add output he.1 he.2.1 he.2.2
  | removes token => exact i.remove hok
  | asks f p thread =>
    refine i.ask ?_ he.2 hok
    intro hasked
    have hunborn := he.1
    cases hfind : s.finds f with
    | unborn => simp [hfind, Find.IsAsked] at hasked
    | _ => simp [hfind] at hunborn
  | begins f => exact i.begin
  | readsStatus f fails => exact i.readStatus fails
  | readsStat f fails => exact i.readStat fails
  | compares f entry => exact i.compare he

/-- Any processes, of no command yet, and any number of finds at once. -/
def machine (me : Process) : Machine State Event where
  init s := s.host.Sound me ∧ (∀ p, s.host.command p = none) ∧ s.records = [] ∧
    ∀ f, s.finds f = .unborn
  enabled := enabled me
  step := step me

theorem Inv.of_reachable {ok : State → Event → Prop} (hok : ∀ s e, ok s e → orderly s e)
    (hs : (machine me).Reachable ok s) : Inv me s := by
  apply hs.invariant
  · rintro s ⟨hsound, _, hrecords, hfinds⟩
    have hunasked : ∀ f, ¬ (s.finds f).IsAsked := by
      intro f
      rw [hfinds f]
      exact id
    refine ⟨hsound, ?_, ?_, fun f h => absurd h (hunasked f), fun f h => absurd h (hunasked f), ?_⟩
    · simp [hrecords]
    · simp [hrecords]
    · intro f
      rw [hfinds f]
      trivial
  · exact fun s e i he h => i.step he (hok s e h)

/-- What `find` answers is the output whose build the requester belongs to; and where it has climbed
to the top, or there was no record, the requester belongs to none, or has gone. -/
theorem find_is_right (hs : (machine me).Reachable orderly s) (f : FindId) :
    (∀ output, s.finds f = .found output →
      ∃ c, s.host.command (s.requester f) = some c ∧ s.output c = some output) ∧
    (s.finds f = .missed .top ∨ s.finds f = .missed .empty →
      s.host.command (s.requester f) = none ∨ s.host.Gone (s.requester f)) := by
  have i := Inv.of_reachable (fun _ _ h => h) hs
  constructor
  · exact fun output hfound => i.follows hfound
  · rintro (htop | hempty)
    · exact i.follows htop
    · exact i.follows hempty

/-- Makebelieve alone. -/
def alone : Host where
  threads := Function.update (fun _ => none) 2 (some 0)
  startTime _ := 0
  born p := p = 0
  pid _ := 2
  started _ := 0
  parent _ := none
  command _ := none
  now := 1

theorem alone_sound : alone.Sound 0 := by
  have hthreads : ∀ id p, alone.threads id = some p → id = 2 ∧ p = 0 := by
    intro id p hp
    by_cases heq : id = 2
    · subst heq
      exact ⟨rfl, (Option.some.inj hp).symm⟩
    · simp [alone, Function.update_of_ne heq] at hp
  have hborn : ∀ p, alone.born p = true → p = 0 := fun p hp => by simpa [alone] using hp
  constructor
  · intro id p hp
    obtain ⟨-, rfl⟩ := hthreads id p hp
    exact ⟨rfl, rfl⟩
  · exact fun _ _ => rfl
  · exact fun _ _ => Nat.le_refl _
  · intro p q hp hq _ _
    rw [hborn p hp, hborn q hq]
  · intro p q _ hparent
    cases hparent
  · exact fun _ _ _ => rfl
  · intro p _ hcommand
    cases hcommand
  · intro p q _ hcommand
    cases hcommand
  · rfl
  · exact ⟨rfl, rfl, rfl⟩

/-- A command starts a process, which opens a file. -/
def opens : List Event :=
  [.launches 1 7, .adds 1 [['a']], .forks 1 2 8, .asks 0 2 8, .begins 0, .readsStatus 0 false,
    .readsStat 0 false, .compares 0 none, .readsStat 0 false,
    .compares 0 (some (1, ⟨[['a']], 7, 1⟩))]

theorem opens_fires : (machine 0).Fires orderly { host := alone } opens := by
  refine ⟨⟨rfl, by decide, rfl, by decide⟩, fun _ h => h, ⟨rfl, rfl, rfl⟩, trivial,
    ⟨rfl, rfl, by decide, rfl, by decide⟩, fun _ h => h, ⟨trivial, rfl⟩, ?_, ⟨8, rfl⟩, trivial,
    ⟨8, rfl⟩, trivial, ⟨8, 0, rfl⟩, trivial, ⟨8, _, 0, rfl, ?_⟩, trivial, ⟨7, 1, rfl⟩, trivial,
    ⟨7, _, 1, rfl, ?_⟩, trivial, trivial⟩
  · intro c hc
    obtain rfl := Option.some.inj hc
    exact ⟨_, List.mem_singleton.mpr rfl, rfl⟩
  · intro entry hentry
    obtain rfl := List.mem_singleton.mp hentry
    rintro ⟨hpid, _⟩
    cases hpid
  · exact ⟨List.mem_singleton.mpr rfl, rfl, rfl⟩

theorem find_is_right_opens : ∃ s : State, s.finds 0 = .found [['a']] ∧
    ∃ c, s.host.command (s.requester 0) = some c ∧ s.output c = some [['a']] := by
  have hreachable : (machine 0).Reachable orderly ((machine 0).runs { host := alone } opens) :=
    .runs (.start ⟨alone_sound, fun _ => rfl, rfl, fun _ => rfl⟩) opens_fires
  exact ⟨_, rfl, (find_is_right hreachable 0).1 _ rfl⟩

end MakeBelieve.ProcessTracker
