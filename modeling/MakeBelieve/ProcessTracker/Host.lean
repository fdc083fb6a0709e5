import MakeBelieve.ProcessTracker.State

namespace MakeBelieve.ProcessTracker

variable {me : Process} {s : State} {e : Event} {h : Host} {p child : Process} {id : Pid}

/-! ### What the kernel keeps to -/

/-- Ids are of processes that are there with their parents, and tell them apart by their start. -/
structure Host.Sound (me : Process) (h : Host) : Prop where
  born : ∀ id p, h.threads id = some p → h.born p = true ∧ h.There p
  started : ∀ p, h.There p → h.startTime (h.pid p) = h.started p
  past : ∀ p, h.born p = true → h.started p ≤ h.startTime (h.pid p)
  unique : ∀ p q, h.born p = true → h.born q = true → h.pid p = h.pid q →
    h.started p = h.started q → p = q
  parent : ∀ p q, h.There p → h.parent p = some q →
    h.There q ∧ (h.command p = some p ∨ h.command q = h.command p)
  orphan : ∀ p, h.born p = true → h.parent p = none → h.command p = none
  launched : ∀ p, h.born p = true → h.command p = some p → h.parent p = some me
  command : ∀ p q, h.born p = true → h.command p = some q →
    h.born q = true ∧ h.command q = some q ∧ 1 < h.pid p
  zero : h.threads 0 = none
  own : h.There me ∧ h.born me = true ∧ h.command me = none

namespace Host.Sound

theorem there_born (k : h.Sound me) (hp : h.There p) : h.born p = true := (k.born _ p hp).1

theorem ticks (k : h.Sound me) : ({ h with now := h.now + 1 } : Host).Sound me :=
  ⟨k.born, k.started, k.past, k.unique, k.parent, k.orphan, k.launched, k.command, k.zero, k.own⟩

/-- An id goes to a thread of a process that is there. -/
theorem take (k : h.Sound me) (hp : h.There p) (hid : h.Unused id) : (h.take id p).Sound me := by
  obtain ⟨hhigh, hnone, hpast⟩ := hid
  have hthere : ∀ q, (h.take id p).There q ↔ h.There q := by
    intro q
    simp only [Host.There, Host.take]
    by_cases heq : h.pid q = id
    · rw [heq, Function.update_self]
      constructor
      · intro hsame
        obtain rfl := Option.some.inj hsame
        simp [Host.There, heq, hnone] at hp
      · intro hq
        simp [hnone] at hq
    · rw [Function.update_of_ne heq]
  have hother : ∀ q, h.There q → h.pid q ≠ id := by
    intro q hq heq
    simp [Host.There, heq, hnone] at hq
  constructor
  · intro id' q hq
    rw [hthere]
    simp only [Host.take] at hq
    by_cases heq : id' = id
    · subst heq
      rw [Function.update_self] at hq
      obtain rfl := Option.some.inj hq
      exact ⟨k.there_born hp, hp⟩
    · rw [Function.update_of_ne heq] at hq
      exact k.born id' q hq
  · intro q hq
    rw [hthere] at hq
    simp only [Host.take, Function.update_of_ne (hother q hq)]
    exact k.started q hq
  · intro q hq
    simp only [Host.take]
    by_cases heq : h.pid q = id
    · rw [heq, Function.update_self]
      have hstarted := k.past q hq
      rw [heq] at hstarted
      omega
    · rw [Function.update_of_ne heq]
      exact k.past q hq
  · exact k.unique
  · intro q r hq hparent
    rw [hthere] at hq ⊢
    exact k.parent q r hq hparent
  · exact k.orphan
  · exact k.launched
  · exact k.command
  · simp only [Host.take]
    rw [Function.update_of_ne (Nat.ne_of_lt (Nat.lt_trans Nat.zero_lt_one hhigh))]
    exact k.zero
  · rw [hthere]
    exact k.own

/-- A thread that is not the first of its process ends. -/
theorem threadEnds (k : h.Sound me) (hp : h.threads id = some p) (hid : id ≠ h.pid p) :
    (h.free id).Sound me := by
  have hthere : ∀ q, (h.free id).There q ↔ h.There q := by
    intro q
    simp only [Host.There, Host.free]
    by_cases heq : h.pid q = id
    · rw [heq, Function.update_self, hp]
      constructor
      · intro hq
        cases hq
      · intro hq
        obtain rfl := Option.some.inj hq
        exact absurd heq.symm hid
    · rw [Function.update_of_ne heq]
  constructor
  · intro id' q hq
    rw [hthere]
    simp only [Host.free] at hq
    by_cases heq : id' = id
    · subst heq
      rw [Function.update_self] at hq
      cases hq
    · rw [Function.update_of_ne heq] at hq
      exact k.born id' q hq
  · exact fun q hq => k.started q ((hthere q).mp hq)
  · exact k.past
  · exact k.unique
  · intro q r hq hparent
    rw [hthere] at hq ⊢
    exact k.parent q r hq hparent
  · exact k.orphan
  · exact k.launched
  · exact k.command
  · simp only [Host.free]
    by_cases heq : 0 = id
    · rw [heq, Function.update_self]
    · rw [Function.update_of_ne heq]
      exact k.zero
  · rw [hthere]
    exact k.own

theorem reaps (k : h.Sound me) (hne : p ≠ me) (hp : h.There p)
    (hthreads : ∀ id, h.threads id = some p → id = h.pid p)
    (hchildren : ∀ q, h.born q = true → h.parent q ≠ some p) :
    (h.free (h.pid p)).Sound me := by
  have hthere : ∀ q, (h.free (h.pid p)).There q ↔ h.There q ∧ q ≠ p := by
    intro q
    simp only [Host.There, Host.free]
    by_cases heq : h.pid q = h.pid p
    · rw [heq, Function.update_self]
      constructor
      · intro hq
        cases hq
      · rintro ⟨hq, hne⟩
        rw [hp] at hq
        exact absurd (Option.some.inj hq).symm hne
    · rw [Function.update_of_ne heq]
      constructor
      · intro hq
        refine ⟨hq, ?_⟩
        rintro rfl
        exact heq rfl
      · exact And.left
  constructor
  · intro id q hq
    rw [hthere]
    simp only [Host.free] at hq
    by_cases heq : id = h.pid p
    · rw [heq, Function.update_self] at hq
      cases hq
    · rw [Function.update_of_ne heq] at hq
      obtain ⟨hborn, hq'⟩ := k.born id q hq
      refine ⟨hborn, hq', ?_⟩
      rintro rfl
      exact heq (hthreads id hq)
  · exact fun q hq => k.started q ((hthere q).mp hq).1
  · exact k.past
  · exact k.unique
  · intro q r hq hparent
    rw [hthere] at hq ⊢
    obtain ⟨hr, hcommand⟩ := k.parent q r hq.1 hparent
    refine ⟨⟨hr, ?_⟩, hcommand⟩
    rintro rfl
    exact hchildren q (k.there_born hq.1) hparent
  · exact k.orphan
  · exact k.launched
  · exact k.command
  · simp only [Host.free]
    by_cases heq : 0 = h.pid p
    · rw [heq, Function.update_self]
    · rw [Function.update_of_ne heq]
      exact k.zero
  · rw [hthere]
    exact ⟨⟨k.own.1, hne.symm⟩, k.own.2⟩

theorem reparent {reaper : Process} (k : h.Sound me) (hne : p ≠ me) (hreaper : h.There reaper)
    (hcommand : ∀ q, h.born q = true → h.parent q = some p → h.command reaper = h.command q) :
    (h.reparent p reaper).Sound me := by
  constructor
  · exact k.born
  · exact k.started
  · exact k.past
  · exact k.unique
  · intro q r hq hparent
    simp only [Host.reparent] at hparent
    split at hparent
    · next hbefore =>
      obtain rfl := Option.some.inj hparent
      exact ⟨hreaper, .inr (hcommand q (k.there_born hq) hbefore)⟩
    · exact k.parent q r hq hparent
  · intro q hq hparent
    simp only [Host.reparent] at hparent
    split at hparent
    · cases hparent
    · exact k.orphan q hq hparent
  · intro q hq hself
    have hparent := k.launched q hq hself
    simp only [Host.reparent]
    rw [if_neg]
    · exact hparent
    · rw [hparent]
      intro heq
      exact hne (Option.some.inj heq).symm
  · exact k.command
  · exact k.zero
  · exact k.own

/-- A process that is born, as one of its parent's command or as a command. -/
theorem birth (k : h.Sound me) {command : Option Process} (hborn : h.born child = false)
    (hp : h.There p) (hid : h.Unused id)
    (hcommand : command = some child ∧ p = me ∨ command = h.command p) :
    (h.birth child id p command).Sound me := by
  obtain ⟨hhigh, hnone, hpast⟩ := hid
  have hne : ∀ q, h.born q = true → q ≠ child := by
    rintro q hq rfl
    simp [hborn] at hq
  have hother : ∀ q, h.There q → h.pid q ≠ id := by
    intro q hq heq
    simp [Host.There, heq, hnone] at hq
  have hchild : (h.birth child id p command).There child := by
    simp [Host.There, Host.birth, Host.take]
  have hstays : ∀ q, h.There q → (h.birth child id p command).There q := by
    intro q hq
    have hqchild := hne q (k.there_born hq)
    simp only [Host.There, Host.birth, Host.take, Function.update_of_ne hqchild,
      Function.update_of_ne (hother q hq)]
    exact hq
  have hbefore : ∀ q, q ≠ child → (h.birth child id p command).There q → h.There q := by
    intro q hqchild hq
    simp only [Host.There, Host.birth, Host.take, Function.update_of_ne hqchild] at hq
    by_cases heq : h.pid q = id
    · rw [heq, Function.update_self] at hq
      exact absurd (Option.some.inj hq).symm hqchild
    · rwa [Function.update_of_ne heq] at hq
  have hwas : ∀ q, q ≠ child → (h.birth child id p command).born q = true → h.born q = true := by
    intro q hqchild hq
    simpa only [Host.birth, Function.update_of_ne hqchild] using hq
  constructor
  · intro id' q hq
    simp only [Host.birth, Host.take] at hq
    by_cases heq : id' = id
    · subst heq
      rw [Function.update_self] at hq
      obtain rfl := Option.some.inj hq
      exact ⟨by simp [Host.birth], hchild⟩
    · rw [Function.update_of_ne heq] at hq
      obtain ⟨hqborn, hqthere⟩ := k.born id' q hq
      exact ⟨by simp [Host.birth, Function.update_of_ne (hne q hqborn), hqborn], hstays q hqthere⟩
  · intro q hq
    by_cases heq : q = child
    · subst heq
      simp [Host.birth, Host.take]
    · have hq := hbefore q heq hq
      simp only [Host.birth, Host.take, Function.update_of_ne heq,
        Function.update_of_ne (hother q hq)]
      exact k.started q hq
  · intro q hq
    by_cases heq : q = child
    · subst heq
      simp [Host.birth, Host.take]
    · have hstarted := k.past q (hwas q heq hq)
      simp only [Host.birth, Host.take, Function.update_of_ne heq]
      by_cases hpid : h.pid q = id
      · rw [hpid] at hstarted
        rw [hpid, Function.update_self]
        omega
      · rw [Function.update_of_ne hpid]
        exact hstarted
  · have hfresh : ∀ q, q ≠ child → h.born q = true → h.pid q = id → h.started q ≠ h.now := by
      intro q _ hq hpid hstarted
      have hle := k.past q hq
      rw [hpid, hstarted] at hle
      omega
    intro q r hq hr hpid hstarted
    by_cases heq : q = child
    · by_cases heq' : r = child
      · rw [heq, heq']
      · subst heq
        simp only [Host.birth, Function.update_self, Function.update_of_ne heq'] at hpid hstarted
        exact absurd hstarted.symm (hfresh r heq' (hwas r heq' hr) hpid.symm)
    · by_cases heq' : r = child
      · subst heq'
        simp only [Host.birth, Function.update_self, Function.update_of_ne heq] at hpid hstarted
        exact absurd hstarted (hfresh q heq (hwas q heq hq) hpid)
      · simp only [Host.birth, Function.update_of_ne heq, Function.update_of_ne heq'] at hpid hstarted
        exact k.unique q r (hwas q heq hq) (hwas r heq' hr) hpid hstarted
  · intro q r hq hparent
    by_cases heq : q = child
    · subst heq
      simp only [Host.birth, Function.update_self, Option.some.injEq] at hparent
      subst hparent
      refine ⟨hstays p hp, ?_⟩
      have hpchild := hne p (k.there_born hp)
      simp only [Host.birth, Function.update_self, Function.update_of_ne hpchild]
      obtain ⟨hself, _⟩ | hinherits := hcommand
      · exact .inl hself
      · exact .inr hinherits.symm
    · simp only [Host.birth, Function.update_of_ne heq] at hparent
      obtain ⟨hr, hcommands⟩ := k.parent q r (hbefore q heq hq) hparent
      refine ⟨hstays r hr, ?_⟩
      have hrchild := hne r (k.there_born hr)
      simpa only [Host.birth, Function.update_of_ne heq, Function.update_of_ne hrchild]
        using hcommands
  · intro q hq hparent
    by_cases heq : q = child
    · subst heq
      simp [Host.birth] at hparent
    · simp only [Host.birth, Function.update_of_ne heq] at hparent ⊢
      exact k.orphan q (hwas q heq hq) hparent
  · intro q hq hself
    by_cases heq : q = child
    · subst heq
      simp only [Host.birth, Function.update_self] at hself ⊢
      obtain ⟨_, rfl⟩ | hinherits := hcommand
      · rfl
      · have hqborn := (k.command p q (k.there_born hp) (hinherits ▸ hself)).1
        simp [hborn] at hqborn
    · simp only [Host.birth, Function.update_of_ne heq] at hself ⊢
      exact k.launched q (hwas q heq hq) hself
  · have hold : ∀ q r, h.born q = true → h.command q = some r →
        (h.birth child id p command).born r = true ∧
          (h.birth child id p command).command r = some r := by
      intro q r hq hr
      obtain ⟨hrborn, hrself, _⟩ := k.command q r hq hr
      have hrchild := hne r hrborn
      simp only [Host.birth, Function.update_of_ne hrchild]
      exact ⟨hrborn, hrself⟩
    intro q r hq hr
    by_cases heq : q = child
    · subst heq
      have hpid : (h.birth q id p command).pid q = id := by simp [Host.birth]
      rw [hpid]
      have hr' : command = some r := by simpa [Host.birth] using hr
      obtain ⟨hself, _⟩ | hinherits := hcommand
      · obtain rfl := Option.some.inj (hself.symm.trans hr')
        exact ⟨by simp [Host.birth], hr, hhigh⟩
      · obtain ⟨hrborn, hrself⟩ := hold p r (k.there_born hp) (hinherits ▸ hr')
        exact ⟨hrborn, hrself, hhigh⟩
    · simp only [Host.birth, Function.update_of_ne heq] at hr
      have hqborn := hwas q heq hq
      obtain ⟨hrborn, hrself⟩ := hold q r hqborn hr
      refine ⟨hrborn, hrself, ?_⟩
      simp only [Host.birth, Function.update_of_ne heq]
      exact (k.command q r hqborn hr).2.2
  · simp only [Host.birth, Host.take]
    rw [Function.update_of_ne (Nat.ne_of_lt (Nat.lt_trans Nat.zero_lt_one hhigh))]
    exact k.zero
  · have hmechild := hne me k.own.2.1
    refine ⟨hstays me k.own.1, ?_, ?_⟩
    · simp only [Host.birth, Function.update_of_ne hmechild]
      exact k.own.2.1
    · simp only [Host.birth, Function.update_of_ne hmechild]
      exact k.own.2.2

end Host.Sound

/-! ### What a step leaves -/

def Event.takes : Event → Option Pid
  | .forks _ _ id | .launches _ id | .clones _ id => some id
  | _ => none

/-- A process stays what it is, and an id whose it is unless it is taken. -/
structure Host.Evolves (taken : Option Pid) (h h' : Host) : Prop where
  born : ∀ p, h.born p = true → h'.born p = true
  pid : ∀ p, h.born p = true → h'.pid p = h.pid p
  started : ∀ p, h.born p = true → h'.started p = h.started p
  command : ∀ p, h.born p = true → h'.command p = h.command p
  gone : ∀ p, h.born p = true → h.Gone p → h'.Gone p
  threads : ∀ id p, taken ≠ some id → h'.threads id = some p → h.threads id = some p

namespace Host.Evolves

variable {h' : Host} {taken : Option Pid}

theorem same (hthreads : h'.threads = h.threads) (hborn : h'.born = h.born) (hpid : h'.pid = h.pid)
    (hstarted : h'.started = h.started) (hcommand : h'.command = h.command) :
    h.Evolves taken h' := by
  refine ⟨?_, ?_, ?_, ?_, ?_, ?_⟩
  · exact fun p hp => by rw [hborn]; exact hp
  · exact fun p _ => by rw [hpid]
  · exact fun p _ => by rw [hstarted]
  · exact fun p _ => by rw [hcommand]
  · intro p _ hgone id
    rw [hthreads]
    exact hgone id
  · intro id p _ hp
    rwa [hthreads] at hp

theorem refl : h.Evolves taken h := .same rfl rfl rfl rfl rfl

theorem free (id : Pid) : h.Evolves taken (h.free id) := by
  have hthreads : ∀ id' p, (h.free id).threads id' = some p → h.threads id' = some p := by
    intro id' p hp
    simp only [Host.free] at hp
    by_cases heq : id' = id
    · subst heq
      rw [Function.update_self] at hp
      cases hp
    · rwa [Function.update_of_ne heq] at hp
  exact ⟨fun _ hp => hp, fun _ _ => rfl, fun _ _ => rfl, fun _ _ => rfl,
    fun p _ hgone id' hp => hgone id' (hthreads id' p hp), fun id' p _ => hthreads id' p⟩

theorem take (hp : h.There p) : h.Evolves (some id) (h.take id p) := by
  have hthreads : ∀ id' q, id' ≠ id → (h.take id p).threads id' = some q →
      h.threads id' = some q := by
    intro id' q hne hq
    simpa only [Host.take, Function.update_of_ne hne] using hq
  refine ⟨fun _ hp => hp, fun _ _ => rfl, fun _ _ => rfl, fun _ _ => rfl, ?_, ?_⟩
  · intro q _ hgone id' hq
    by_cases heq : id' = id
    · subst heq
      simp only [Host.take, Function.update_self] at hq
      obtain rfl := Option.some.inj hq
      exact hgone _ hp
    · exact hgone id' (hthreads id' q heq hq)
  · intro id' q hne
    apply hthreads
    rintro rfl
    exact hne rfl

theorem birth {command : Option Process} (hborn : h.born child = false) :
    h.Evolves (some id) (h.birth child id p command) := by
  have hne : ∀ q, h.born q = true → q ≠ child := by
    rintro q hq rfl
    simp [hborn] at hq
  have hthreads : ∀ id' q, id' ≠ id → (h.birth child id p command).threads id' = some q →
      h.threads id' = some q := by
    intro id' q hne hq
    simpa only [Host.birth, Host.take, Function.update_of_ne hne] using hq
  refine ⟨?_, ?_, ?_, ?_, ?_, ?_⟩
  · exact fun q hq => by simpa only [Host.birth, Function.update_of_ne (hne q hq)] using hq
  · exact fun q hq => by simp only [Host.birth, Function.update_of_ne (hne q hq)]
  · exact fun q hq => by simp only [Host.birth, Function.update_of_ne (hne q hq)]
  · exact fun q hq => by simp only [Host.birth, Function.update_of_ne (hne q hq)]
  · intro q hqborn hgone id' hq
    by_cases heq : id' = id
    · subst heq
      simp only [Host.birth, Host.take, Function.update_self] at hq
      exact hne q hqborn (Option.some.inj hq).symm
    · exact hgone id' (hthreads id' q heq hq)
  · intro id' q hne
    apply hthreads
    rintro rfl
    exact hne rfl

end Host.Evolves

theorem evolves (he : enabled me s e) : s.host.Evolves e.takes (step me s e).host := by
  cases e with
  | ticks => exact .same rfl rfl rfl rfl rfl
  | forks p child id => exact .birth he.2.1
  | launches child id => exact .birth he.1
  | clones p id => exact .take he.1
  | threadEnds p id => exact .free id
  | exits p reaper => exact .same rfl rfl rfl rfl rfl
  | reaps p => exact .free _
  | adds command output | removes token => exact .refl
  | asks f p thread => exact .refl
  | begins f =>
    simp only [step, State.begin]
    split
    all_goals exact .refl
  | readsStatus f fails =>
    simp only [step, State.readStatus]
    repeat' split
    all_goals exact .refl
  | readsStat f fails =>
    simp only [step, State.readStat]
    repeat' split
    all_goals exact .refl
  | compares f entry =>
    simp only [step, State.compare]
    repeat' split
    all_goals exact .refl

theorem step_host (k : s.host.Sound me) (he : enabled me s e) : (step me s e).host.Sound me := by
  cases e with
  | ticks => exact k.ticks
  | forks p child id => exact k.birth he.2.1 he.1 he.2.2 (.inr rfl)
  | launches child id => exact k.birth he.1 k.own.1 he.2 (.inl ⟨rfl, rfl⟩)
  | clones p id => exact k.take he.1 he.2
  | threadEnds p id => exact k.threadEnds he.1 he.2
  | exits p reaper => exact k.reparent he.1 he.2.1 he.2.2
  | reaps p => exact k.reaps he.1 he.2.1 he.2.2.1 he.2.2.2
  | adds command output | removes token | asks f p thread => exact k
  | begins f =>
    simp only [step, State.begin]
    split
    all_goals exact k
  | readsStatus f fails =>
    simp only [step, State.readStatus]
    repeat' split
    all_goals exact k
  | readsStat f fails =>
    simp only [step, State.readStat]
    repeat' split
    all_goals exact k
  | compares f entry =>
    simp only [step, State.compare]
    repeat' split
    all_goals exact k

end MakeBelieve.ProcessTracker
