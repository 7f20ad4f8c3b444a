import ProtonDrive.EventPoller

/-!
# The poll loop and its anchor

`Start`, `poll` and the persisted anchor of `events.go`. A poll is the list of jobs it does on
the answer it got, one after the other, so that a run can be cut between any two of them. The
server's log numbers its events; the numbers are not part of what the helper reads.
-/

namespace ProtonDrive.PollLoop
open SlashPaths DriveApi DriveSession EventPoller

abbrev EventID := List Char

/-- A link event with its place in the log. -/
structure LogEntry where
  position : ℕ
  event : LinkEvent
  deriving DecidableEq, Repr

/-- `proton.DriveEvent`, one answer of the event feed. -/
structure VolumeEvent where
  eventID : EventID
  refresh : Bool
  events : List LogEntry
  deriving Repr

/-- The notification of a full refresh. -/
def rootChanged : DriveEvent := ⟨.changed, "", ['/']⟩

inductive Job
  | handle (entry : LogEntry)
  | invalidateAll
  | enqueue (ev : DriveEvent)
  | saveAnchor (eventID : EventID)
  deriving Repr

def refreshJobs (eventID : EventID) : List Job :=
  [.invalidateAll, .enqueue rootChanged, .saveAnchor eventID]

/-- What a poll does on the answer to `GetVolumeEvent`, and the anchor it returns; `latest` is
the answer to `GetLatestVolumeEventID` should it be asked. -/
def poll (eventID : EventID) (fetched : Option VolumeEvent) (latest : Option EventID) :
    List Job × EventID :=
  match fetched with
  | none => ([], eventID)
  | some ev =>
    if ev.eventID = [] then
      match latest with
      | none => ([], eventID)
      | some newID => (refreshJobs newID, newID)
    else if ev.refresh then (refreshJobs ev.eventID, ev.eventID)
    else (ev.events.map .handle ++ [.saveAnchor ev.eventID], ev.eventID)

/-- `unicode.IsSpace`. -/
def isSpace (c : Char) : Bool :=
  let n := c.toNat
  (9 ≤ n && n ≤ 13) || n == 0x20 || n == 0x85 || n == 0xA0 || n == 0x1680 ||
    (0x2000 ≤ n && n ≤ 0x200A) || n == 0x2028 || n == 0x2029 || n == 0x202F || n == 0x205F ||
    n == 0x3000

def trimSpace (s : List Char) : List Char :=
  ((s.dropWhile isSpace).reverse.dropWhile isSpace).reverse

/-- The empty id stands for no anchor, for lack of a path or a file, or on a read error. -/
def loadAnchor (anchorPath : Path) (file : Option EventID) (readable : Bool) : EventID :=
  if anchorPath = [] then []
  else if readable then (file.map trimSpace).getD [] else []

/-- A write that fails leaves the old content. -/
def saveAnchor (anchorPath : Path) (written : Bool) (eventID : EventID) (file : Option EventID) :
    Option EventID :=
  if anchorPath = [] then file else if written then some eventID else file

/-- The anchor `Start` gives to the loop, unless polling is disabled. -/
def start (loaded : EventID) (latest : Option EventID) : Option EventID :=
  if loaded = [] then latest else some loaded

variable {KR : Type}

/-- A running poller with what is left of the current poll. -/
structure Poller (KR : Type) where
  session : Session KR
  queue : List DriveEvent
  eventID : EventID
  jobs : List Job

/-- One job on the session and the queue; `none` is a crash of the helper. -/
def Job.exec (C : Crypto KR) (w : World) (p : Poller KR) : Job → Option (Poller KR)
  | .handle entry => (EventPoller.handle C w entry.event p.session).map fun o =>
    { p with
      session := o.state
      queue := (o.result.toOption.getD []).foldl EventPoller.enqueue p.queue }
  | .invalidateAll => some { p with session := p.session.invalidateAll }
  | .enqueue ev => some { p with queue := EventPoller.enqueue p.queue ev }
  | .saveAnchor _ => some p

/-- The event log of a volume: an id for each position, position 0 being the empty log. Ids are
opaque tokens without blanks. -/
structure EventLog where
  id : ℕ → EventID
  event : ℕ → LinkEvent
  id_injective : Function.Injective id
  id_ne_nil : ∀ n, id n ≠ []
  id_trimmed : ∀ n, trimSpace (id n) = id n

namespace EventLog

def entry (log : EventLog) (i : ℕ) : LogEntry := ⟨i, log.event i⟩

/-- The events after position `a` up to position `b`. -/
def entries (log : EventLog) (a b : ℕ) : List LogEntry :=
  (List.range' (a + 1) (b - a)).map log.entry

/-- What the feed answers while the log is `head` long: an error, a batch after the anchor, a
refresh, or that it has forgotten the anchor. -/
inductive Fetches (log : EventLog) (head : ℕ) (eventID : EventID) : Option VolumeEvent → Prop
  | failed : Fetches log head eventID none
  | batch (a b : ℕ) : eventID = log.id a → a ≤ b → b ≤ head →
      Fetches log head eventID (some ⟨log.id b, false, log.entries a b⟩)
  | refresh (a b : ℕ) (events : List LogEntry) : eventID = log.id a → a ≤ b → b ≤ head →
      Fetches log head eventID (some ⟨log.id b, true, events⟩)
  | forgotten (refresh : Bool) (events : List LogEntry) :
      Fetches log head eventID (some ⟨[], refresh, events⟩)

/-- What `GetLatestVolumeEventID` answers while the log is `head` long. -/
def Latest (log : EventLog) (head : ℕ) (latest : Option EventID) : Prop :=
  ∀ id, latest = some id → id = log.id head

theorem entries_self (log : EventLog) (a : ℕ) : log.entries a a = [] := by
  simp [entries]

theorem entries_cons (log : EventLog) {a b : ℕ} (h : a < b) :
    log.entries a b = log.entry (a + 1) :: log.entries (a + 1) b := by
  have hb : b - a = (b - (a + 1)) + 1 := by omega
  simp only [entries, hb, List.range'_succ, List.map_cons]

end EventLog

/-- What the current process has done: the anchor it began with, the events it has handled, the
length of the log at its last invalidation and at its last full refresh. -/
structure History where
  first : EventID
  handled : List LogEntry
  dropped : ℕ
  refreshed : ℕ

/-- The server's log length, the anchor file and the poller, if one runs. The rest is never read
by a step: the head fetched by the latest start without an anchor, all events handled so far, the
length of the log at the last full refresh, and the history of the current process. -/
structure Machine (KR : Type) where
  head : ℕ
  file : Option EventID
  poller : Option (Poller KR)
  base : ℕ
  handled : List LogEntry
  refreshed : ℕ
  here : History

/-- Before the first start. -/
def pristine (head : ℕ) : Machine KR :=
  ⟨head, none, none, 0, [], 0, ⟨[], [], 0, 0⟩⟩

/-- The bookkeeping of one job; `written` says whether a write of the file succeeds. -/
def Machine.record (anchorPath : Path) (written : Bool) (m : Machine KR) : Job → Machine KR
  | .handle entry => { m with
      handled := m.handled ++ [entry]
      here := { m.here with handled := m.here.handled ++ [entry] } }
  | .invalidateAll => { m with here := { m.here with dropped := m.head } }
  | .enqueue _ => { m with
      refreshed := max m.refreshed m.here.dropped
      here := { m.here with refreshed := max m.here.refreshed m.here.dropped } }
  | .saveAnchor id => { m with file := saveAnchor anchorPath written id m.file }

/-- One step of the system. Connections may change the session and drain the queue at any time,
and the helper may die at any time. -/
inductive Step (log : EventLog) (anchorPath : Path) (C : Crypto KR) :
    Machine KR → Machine KR → Prop
  | grow (m : Machine KR) : Step log anchorPath C m { m with head := m.head + 1 }
  | start (m : Machine KR) (s : Session KR) (readable : Bool) (latest : Option EventID)
      {eventID : EventID} : m.poller = none → log.Latest m.head latest →
      PollLoop.start (loadAnchor anchorPath m.file readable) latest = some eventID →
      Step log anchorPath C m { m with
        poller := some ⟨s, [], eventID, []⟩
        base := if loadAnchor anchorPath m.file readable = [] then m.head else m.base
        here := ⟨eventID, [], 0, 0⟩ }
  | poll (m : Machine KR) {p : Poller KR} {fetched : Option VolumeEvent} {head : ℕ}
      {latest : Option EventID} : m.poller = some p → p.jobs = [] →
      log.Fetches m.head p.eventID fetched → m.head ≤ head → log.Latest head latest →
      Step log anchorPath C m { m with
        head := head
        poller := some { p with
          jobs := (PollLoop.poll p.eventID fetched latest).1
          eventID := (PollLoop.poll p.eventID fetched latest).2 } }
  | job (m : Machine KR) (w : World) (written : Bool) {p p' : Poller KR} {j : Job}
      {js : List Job} : m.poller = some p → p.jobs = j :: js →
      j.exec C w { p with jobs := js } = some p' →
      Step log anchorPath C m (({ m with poller := some p' }).record anchorPath written j)
  | serve (m : Machine KR) {p : Poller KR} (s : Session KR) (queue : List DriveEvent) :
      m.poller = some p →
      Step log anchorPath C m { m with poller := some { p with session := s, queue := queue } }
  | crash (m : Machine KR) : Step log anchorPath C m { m with poller := none }

inductive Reachable (log : EventLog) (anchorPath : Path) (C : Crypto KR) : Machine KR → Prop
  | init (head : ℕ) : Reachable log anchorPath C (pristine head)
  | step {m m' : Machine KR} : Reachable log anchorPath C m → Step log anchorPath C m m' →
      Reachable log anchorPath C m'

/-- Every event after position `lo` up to `hi` is among the handled ones or occurred before a full
refresh. -/
def Covered (log : EventLog) (handled : List LogEntry) (refreshed lo hi : ℕ) : Prop :=
  ∀ i, lo < i → i ≤ hi → log.entry i ∈ handled ∨ i ≤ refreshed

/-- What can be left of a poll when all is done up to position `c`. -/
inductive Pending (log : EventLog) (head dropped c : ℕ) : List Job → EventID → Prop
  | idle : Pending log head dropped c [] (log.id c)
  | batch (b : ℕ) : c ≤ b → b ≤ head →
      Pending log head dropped c ((log.entries c b).map .handle ++ [.saveAnchor (log.id b)])
        (log.id b)
  | drop (b : ℕ) : c ≤ b → b ≤ head → Pending log head dropped c (refreshJobs (log.id b)) (log.id b)
  | announce (b : ℕ) : c ≤ b → b ≤ dropped → b ≤ head →
      Pending log head dropped c [.enqueue rootChanged, .saveAnchor (log.id b)] (log.id b)

/-- The running process began at position `a` and has dealt with everything up to `c`. -/
structure Progress (log : EventLog) (m : Machine KR) (p : Poller KR) (a c : ℕ) : Prop where
  first : m.here.first = log.id a
  le : a ≤ c
  head : c ≤ m.head
  covered : Covered log m.handled m.refreshed m.base c
  here : Covered log m.here.handled m.here.refreshed a c
  entries : ∀ e ∈ m.here.handled, ∃ i, e = log.entry i ∧ a < i ∧ i ≤ c
  sorted : m.here.handled.Pairwise (fun e e' => e.position < e'.position)
  gaps : ∀ i, log.entry i ∈ m.here.handled → Covered log m.here.handled m.here.refreshed a i
  pending : Pending log m.head m.here.dropped c p.jobs p.eventID

structure Inv (log : EventLog) (m : Machine KR) : Prop where
  file : ∀ id, m.file = some id →
    ∃ c, id = log.id c ∧ c ≤ m.head ∧ Covered log m.handled m.refreshed m.base c
  poller : ∀ p, m.poller = some p → ∃ a c, Progress log m p a c

section Lemmas

variable {log : EventLog} {head dropped a b c lo hi r r' : ℕ} {handled handled' : List LogEntry}
  {jobs : List Job} {eventID : EventID}

theorem Covered.mono (h : Covered log handled r lo hi) (hsub : ∀ e ∈ handled, e ∈ handled')
    (hr : r ≤ r') : Covered log handled' r' lo hi := by
  intro i hlo hhi
  rcases h i hlo hhi with hm | hm
  · exact .inl (hsub _ hm)
  · exact .inr (hm.trans hr)

theorem covered_of_le (h : hi ≤ lo) : Covered log handled r lo hi := by
  intro i hlo hhi
  omega

/-- Handling the next event extends what is covered by one. -/
theorem Covered.snoc (h : Covered log handled r lo c) :
    Covered log (handled ++ [log.entry (c + 1)]) r lo (c + 1) := by
  intro i hlo hhi
  rcases Nat.lt_or_ge c i with hi | hi
  · obtain rfl : i = c + 1 := by omega
    exact .inl (by simp)
  · exact (h.mono (fun e he => List.mem_append_left _ he) le_rfl) i hlo hi

/-- A refresh covers all that came before it. -/
theorem Covered.refresh (h : Covered log handled r lo c) (hb : b ≤ r') :
    Covered log handled (max r r') lo (max c b) := by
  intro i hlo hhi
  rcases Nat.lt_or_ge c i with hi | hi
  · exact .inr (by omega)
  · exact (h.mono (fun e he => he) (le_max_left r r')) i hlo hi

theorem Pending.grow {head' : ℕ} (h : Pending log head dropped c jobs eventID)
    (hh : head ≤ head') : Pending log head' dropped c jobs eventID := by
  cases h with
  | idle => exact .idle
  | batch b hc hb => exact .batch b hc (hb.trans hh)
  | drop b hc hb => exact .drop b hc (hb.trans hh)
  | announce b hc hd hb => exact .announce b hc hd (hb.trans hh)

theorem Pending.of_nil (h : Pending log head dropped c [] eventID) : eventID = log.id c := by
  generalize hj : ([] : List Job) = jobs at h
  cases h with
  | idle => rfl
  | batch b => simp at hj
  | drop b => simp [refreshJobs] at hj
  | announce b => simp at hj

/-- The first job left of a poll, and what is left after it. -/
theorem Pending.of_cons {j : Job} (h : Pending log head dropped c (j :: jobs) eventID) :
    (j = .handle (log.entry (c + 1)) ∧ c + 1 ≤ head ∧
      Pending log head dropped (c + 1) jobs eventID) ∨
    (j = .invalidateAll ∧ Pending log head head c jobs eventID) ∨
    (∃ b, j = .enqueue rootChanged ∧ c ≤ b ∧ b ≤ dropped ∧ b ≤ head ∧
      Pending log head dropped b jobs eventID) ∨
    (j = .saveAnchor (log.id c) ∧ Pending log head dropped c jobs eventID) := by
  have hsave : ∀ b, b ≤ head →
      Pending log head dropped b [.saveAnchor (log.id b)] (log.id b) := by
    intro b hb
    have hbatch : Pending log head dropped b _ _ := .batch b le_rfl hb
    rwa [log.entries_self] at hbatch
  generalize hj : j :: jobs = js at h
  cases h with
  | idle => cases hj
  | batch b hc hb =>
    rcases Nat.eq_or_lt_of_le hc with rfl | hlt
    · simp only [log.entries_self, List.map_nil, List.nil_append] at hj
      obtain ⟨rfl, rfl⟩ := List.cons.inj hj
      exact .inr (.inr (.inr ⟨rfl, .idle⟩))
    · rw [log.entries_cons hlt, List.map_cons, List.cons_append] at hj
      obtain ⟨rfl, rfl⟩ := List.cons.inj hj
      exact .inl ⟨rfl, hlt.trans_le hb, .batch b hlt hb⟩
  | drop b hc hb =>
    obtain ⟨rfl, rfl⟩ := List.cons.inj hj
    exact .inr (.inl ⟨rfl, .announce b hc hb hb⟩)
  | announce b hc hd hb =>
    obtain ⟨rfl, rfl⟩ := List.cons.inj hj
    exact .inr (.inr (.inl ⟨b, rfl, hc, hd, hb, hsave b hb⟩))

/-- A poll that starts with everything done up to `c` leaves jobs for a later position. -/
theorem poll_pending {fetched : Option VolumeEvent} {latest : Option EventID} {head' : ℕ}
    (hf : log.Fetches head (log.id c) fetched) (hh : head ≤ head') (hc : c ≤ head)
    (hl : log.Latest head' latest) :
    Pending log head' dropped c (poll (log.id c) fetched latest).1
      (poll (log.id c) fetched latest).2 := by
  cases hf with
  | failed => exact .idle
  | batch a b ha hab hb =>
    obtain rfl := log.id_injective ha
    simp only [poll, log.id_ne_nil b, if_false, Bool.false_eq_true]
    exact .batch b hab (hb.trans hh)
  | refresh a b events ha hab hb =>
    obtain rfl := log.id_injective ha
    simp only [poll, log.id_ne_nil b, if_false, if_true]
    exact .drop b hab (hb.trans hh)
  | forgotten refresh events =>
    simp only [poll, if_true]
    cases latest with
    | none => exact .idle
    | some newID =>
      obtain rfl := hl newID rfl
      exact .drop head' (hc.trans hh) le_rfl

end Lemmas

section Invariant

variable {log : EventLog} {anchorPath : Path} {C : Crypto KR} {m m' : Machine KR}
  {p p' : Poller KR} {a c : ℕ}

theorem inv_pristine (head : ℕ) : Inv log (pristine head : Machine KR) := by
  constructor
  · intro id hid
    cases hid
  · intro p hp
    cases hp

theorem Inv.grow (h : Inv log m) {head : ℕ} (hh : m.head ≤ head) :
    Inv log { m with head := head } := by
  constructor
  · intro id hid
    obtain ⟨c, hc, hle, hcov⟩ := h.file id hid
    exact ⟨c, hc, hle.trans hh, hcov⟩
  · intro p hp
    obtain ⟨a, c, hp⟩ := h.poller p hp
    exact ⟨a, c, { hp with head := hp.head.trans hh, pending := hp.pending.grow hh }⟩

/-- The anchor a process begins with is one of the log, with all before it covered. -/
theorem start_anchor (h : Inv log m) {readable : Bool} {latest : Option EventID}
    {eventID : EventID} (hl : log.Latest m.head latest)
    (hs : PollLoop.start (loadAnchor anchorPath m.file readable) latest = some eventID) :
    ∃ c, eventID = log.id c ∧ c ≤ m.head ∧ Covered log m.handled m.refreshed
      (if loadAnchor anchorPath m.file readable = [] then m.head else m.base) c := by
  simp only [PollLoop.start] at hs
  split_ifs at hs with hload
  · exact ⟨m.head, hl eventID hs, le_rfl, by simpa [hload] using covered_of_le le_rfl⟩
  · rw [if_neg hload]
    obtain rfl := Option.some.inj hs
    simp only [loadAnchor] at hload ⊢
    split_ifs at hload ⊢ with hpath hread
    · exact absurd rfl hload
    · cases hfile : m.file with
      | none => simp [hfile] at hload
      | some id =>
        obtain ⟨c, rfl, hle, hcov⟩ := h.file id hfile
        exact ⟨c, by simp [log.id_trimmed], hle, hcov⟩
    · exact absurd rfl hload

theorem Inv.start (h : Inv log m) (s : Session KR) {readable : Bool} {latest : Option EventID}
    {eventID : EventID} (hl : log.Latest m.head latest)
    (hs : PollLoop.start (loadAnchor anchorPath m.file readable) latest = some eventID) :
    Inv log { m with
      poller := some ⟨s, [], eventID, []⟩
      base := if loadAnchor anchorPath m.file readable = [] then m.head else m.base
      here := ⟨eventID, [], 0, 0⟩ } := by
  constructor
  · intro id hid
    obtain ⟨c, hc, hle, hcov⟩ := h.file id hid
    refine ⟨c, hc, hle, ?_⟩
    dsimp only
    split_ifs
    · exact covered_of_le hle
    · exact hcov
  · intro p hp
    obtain rfl := Option.some.inj hp
    obtain ⟨c, rfl, hle, hcov⟩ := start_anchor h hl hs
    exact ⟨c, c, rfl, le_rfl, hle, hcov, covered_of_le le_rfl, by simp, .nil, by simp, .idle⟩

theorem Inv.poll (h : Inv log m) {fetched : Option VolumeEvent} {head : ℕ}
    {latest : Option EventID} (hp : m.poller = some p) (hjobs : p.jobs = [])
    (hf : log.Fetches m.head p.eventID fetched) (hh : m.head ≤ head)
    (hl : log.Latest head latest) :
    Inv log { m with
      head := head
      poller := some { p with
        jobs := (PollLoop.poll p.eventID fetched latest).1
        eventID := (PollLoop.poll p.eventID fetched latest).2 } } := by
  refine ⟨(h.grow hh).file, ?_⟩
  intro p' hp'
  obtain rfl := Option.some.inj hp'
  obtain ⟨a, c, hc⟩ := h.poller p hp
  have hid : p.eventID = log.id c := Pending.of_nil (hjobs ▸ hc.pending)
  have hpend : Pending log head m.here.dropped c _ _ := poll_pending (hid ▸ hf) hh hc.head hl
  exact ⟨a, c, { hc with head := hc.head.trans hh, pending := by rw [hid]; exact hpend }⟩

/-- A step of the process that does not touch its anchor, its jobs or the record. -/
theorem Inv.serve (h : Inv log m) (hp : m.poller = some p) (s : Session KR)
    (queue : List DriveEvent) :
    Inv log { m with poller := some { p with session := s, queue := queue } } := by
  refine ⟨h.file, ?_⟩
  intro p' hp'
  obtain rfl := Option.some.inj hp'
  obtain ⟨a, c, hc⟩ := h.poller p hp
  exact ⟨a, c, { hc with }⟩

theorem Inv.crash (h : Inv log m) : Inv log ({ m with poller := none } : Machine KR) := by
  refine ⟨h.file, ?_⟩
  intro p hp
  cases hp

theorem exec_jobs {w : World} {j : Job} (h : j.exec C w p = some p') :
    p'.jobs = p.jobs ∧ p'.eventID = p.eventID := by
  cases j with
  | handle entry =>
    simp only [Job.exec, Option.map_eq_some_iff] at h
    obtain ⟨o, -, rfl⟩ := h
    exact ⟨rfl, rfl⟩
  | invalidateAll | enqueue | saveAnchor =>
    obtain rfl := Option.some.inj h
    exact ⟨rfl, rfl⟩

/-- The next event is handled. -/
theorem Progress.handle (h : Progress log m p a c) (hhead : c + 1 ≤ m.head) (w : Bool)
    (hpend : Pending log m.head m.here.dropped (c + 1) p'.jobs p'.eventID) :
    Progress log (({ m with poller := some p' }).record anchorPath w (.handle (log.entry (c + 1))))
      p' a (c + 1) := by
  have hac := h.le
  have hhere : Covered log (m.here.handled ++ [log.entry (c + 1)]) m.here.refreshed a (c + 1) :=
    h.here.snoc
  refine ⟨h.first, by omega, hhead, h.covered.snoc, hhere, ?_, ?_, ?_, hpend⟩
  · intro e he
    rcases List.mem_append.mp he with he | he
    · obtain ⟨i, rfl, hi, hic⟩ := h.entries e he
      exact ⟨i, rfl, hi, by omega⟩
    · obtain rfl := List.mem_singleton.mp he
      exact ⟨c + 1, rfl, by omega, le_rfl⟩
  · refine List.pairwise_append.mpr ⟨h.sorted, List.pairwise_singleton _ _, ?_⟩
    intro e he e' he'
    obtain ⟨i, rfl, -, hic⟩ := h.entries e he
    obtain rfl := List.mem_singleton.mp he'
    exact Nat.lt_succ_of_le hic
  · intro i hi
    rcases List.mem_append.mp hi with hi | hi
    · exact (h.gaps i hi).mono (fun e he => List.mem_append_left _ he) le_rfl
    · obtain rfl : i = c + 1 := congrArg LogEntry.position (List.mem_singleton.mp hi)
      exact hhere

/-- The refresh is announced: everything up to `b` was dropped before. -/
theorem Progress.announce (h : Progress log m p a c) {b : ℕ} (hcb : c ≤ b)
    (hd : b ≤ m.here.dropped) (hb : b ≤ m.head) (w : Bool)
    (hpend : Pending log m.head m.here.dropped b p'.jobs p'.eventID) :
    Progress log (({ m with poller := some p' }).record anchorPath w (.enqueue rootChanged))
      p' a b := by
  have hmax : max c b = b := max_eq_right hcb
  refine ⟨h.first, h.le.trans hcb, hb, ?_, ?_, ?_, h.sorted, ?_, hpend⟩
  · have hc := h.covered.refresh hd
    rwa [hmax] at hc
  · have hc := h.here.refresh hd
    rwa [hmax] at hc
  · intro e he
    obtain ⟨i, rfl, hi, hic⟩ := h.entries e he
    exact ⟨i, rfl, hi, hic.trans hcb⟩
  · intro i hi
    exact (h.gaps i hi).mono (fun e he => he) (le_max_left _ _)

theorem Inv.job (h : Inv log m) {w : World} (written : Bool) {j : Job} {js : List Job}
    (hp : m.poller = some p) (hjobs : p.jobs = j :: js)
    (hexec : j.exec C w { p with jobs := js } = some p') :
    Inv log (({ m with poller := some p' }).record anchorPath written j) := by
  obtain ⟨a, c, hc⟩ := h.poller p hp
  obtain ⟨hjs, hid⟩ := exec_jobs hexec
  have hpend := hc.pending
  rw [hjobs] at hpend
  have only : ∀ {m' : Machine KR} {a' c' : ℕ}, m'.poller = some p' → Progress log m' p' a' c' →
      ∀ p, m'.poller = some p → ∃ a c, Progress log m' p a c := by
    intro m' a' c' hm' hprog q hq
    obtain rfl := Option.some.inj (hm'.symm.trans hq)
    exact ⟨a', c', hprog⟩
  rcases hpend.of_cons with ⟨rfl, hhead, hn⟩ | ⟨rfl, hn⟩ | ⟨b, rfl, hcb, hd, hb, hn⟩ | ⟨rfl, hn⟩
  · refine ⟨?_, only rfl (hc.handle hhead written (by rw [hjs, hid]; exact hn))⟩
    intro id hfile
    obtain ⟨c', hc', hle, hcov⟩ := h.file id hfile
    exact ⟨c', hc', hle, hcov.mono (fun e he => List.mem_append_left _ he) le_rfl⟩
  · refine ⟨h.file, only rfl (?_ : Progress log _ p' a c)⟩
    exact { hc with pending := by rw [hjs, hid]; exact hn }
  · refine ⟨?_, only rfl (hc.announce hcb hd hb written (by rw [hjs, hid]; exact hn))⟩
    intro id hfile
    obtain ⟨c', hc', hle, hcov⟩ := h.file id hfile
    exact ⟨c', hc', hle, hcov.mono (fun e he => he) (le_max_left _ _)⟩
  · refine ⟨?_, only rfl (?_ : Progress log _ p' a c)⟩
    · -- the anchor written is that of the position everything up to which is done
      intro id hfile
      simp only [Machine.record, saveAnchor] at hfile
      split_ifs at hfile
      · exact h.file id hfile
      · exact ⟨c, (Option.some.inj hfile).symm, hc.head, hc.covered⟩
      · exact h.file id hfile
    · exact { hc with pending := by rw [hjs, hid]; exact hn }

theorem inv_step (h : Inv log m) (hstep : Step log anchorPath C m m') : Inv log m' := by
  cases hstep with
  | grow => exact h.grow (Nat.le_succ _)
  | start s readable latest hp hl hs => exact h.start s hl hs
  | poll hp hjobs hf hh hl => exact h.poll hp hjobs hf hh hl
  | job w written hp hjobs hexec => exact h.job written hp hjobs hexec
  | serve s queue hp => exact h.serve hp s queue
  | crash => exact h.crash

end Invariant

end ProtonDrive.PollLoop
