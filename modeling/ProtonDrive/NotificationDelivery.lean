import ProtonDrive.MonitorPaths
import ProtonDrive.EventQueue
import ProtonDrive.PartialRuns

/-!
# What a monitor hears

The queue of the poller, the poll timer of the backend and the monitors it knows, over a whole
mount: notifications are enqueued, ticks of the timer drain the queue and tell the monitors,
monitors are registered and finalised, and another mount may replace the session. A request that is
served but whose reply is lost has drained the queue all the same.
-/

namespace ProtonDrive.NotificationDelivery
open SlashPaths DriveApi EventPoller PollLoop JsonNodes RpcClient RpcConnections ChangeMonitors
  PartialRuns
open EventQueue (newest)

variable {KR : Type}

/-- How the call of one tick goes: the request is not sent, or it is served and the reply does not
arrive, or the reply is read. -/
inductive Exchange
  | unsent
  | unanswered
  | answered
  deriving DecidableEq, Repr

structure System (KR : Type) where
  poller : Poller KR
  monitors : Monitors
  emitted : List Emission

inductive Act (KR : Type)
  | enqueue (ev : DriveEvent)
  | tick (id : ℤ) (x : Exchange)
  | register (path : Path) (g : ℕ)
  | finalise (g : ℕ)
  | resume (p : Poller KR)

section Machine

/-- The addresses of the monitors that are not finalised. -/
def live (ms : Monitors) : List ℕ := ms.entries.filterMap (·.monitor)

/-- `register_monitor`: a new monitor has an address that no live one has. -/
def registerMonitor (ms : Monitors) (path : Path) (g : ℕ) (habs : path.head? = some '/')
    (hg : g ∉ live ms) : Monitors where
  entries := ms.entries ++ [⟨path, some g⟩]
  absolute := by
    intro entry he
    rcases List.mem_append.mp he with he | he
    · exact ms.absolute entry he
    · rw [List.mem_singleton.mp he]
      exact habs
  distinct := by
    rw [List.filterMap_append, List.nodup_append]
    refine ⟨ms.distinct, by simp, ?_⟩
    rintro g' hg' _ hs rfl
    obtain rfl : g' = g := by simpa using hs
    exact hg hg'

/-- The weak pointer to a finalised monitor is cleared. -/
def cleared (g : ℕ) (entry : ProtonMonitorEntry) : ProtonMonitorEntry :=
  { entry with monitor := entry.monitor.filter (· ≠ g) }

def finaliseMonitor (ms : Monitors) (g : ℕ) : Monitors where
  entries := ms.entries.map (cleared g)
  absolute := by
    intro entry he
    obtain ⟨entry', he', rfl⟩ := List.mem_map.mp he
    exact ms.absolute entry' he'
  distinct := by
    have hfilter : (ms.entries.map (cleared g)).filterMap (·.monitor) =
        (ms.entries.filterMap (·.monitor)).filter (· ≠ g) := by
      rw [List.filterMap_map, List.filter_filterMap]
      rfl
    rw [hfilter]
    exact ms.distinct.filter _

/-- The poller after the `GetEvents` handler has drained it. -/
def drained (p : Poller KR) : Poller KR := ((getEventsHandler true (some p)).2).getD p

/-- `poll_events_cb`: a failed call tells nobody anything. -/
def System.tick (s : System KR) (id : ℤ) : Exchange → System KR
  | .unsent => s
  | .unanswered => { s with poller := drained s.poller }
  | .answered => { s with
      poller := drained s.poller
      emitted := s.emitted ++
        ((eventsRead id s.poller).elim [] fun events => pollEvents s.monitors.entries events) }

def System.step (s : System KR) : Act KR → Option (System KR)
  | .enqueue ev => some { s with poller := { s.poller with
      queue := EventPoller.enqueue s.poller.queue ev } }
  | .tick id x => some (s.tick id x)
  | .register path g =>
    if h : path.head? = some '/' ∧ g ∉ live s.monitors then
      some { s with monitors := registerMonitor s.monitors path g h.1 h.2 }
    else none
  | .finalise g => some { s with monitors := finaliseMonitor s.monitors g }
  | .resume p => some { s with poller := { p with queue := [] } }

end Machine

section Told

def kind : EventType → FileMonitorEvent
  | .changed => .changed
  | .deleted => .deleted
  | .created => .created

/-- What a monitor of the path is to hear of a notification. -/
def told (path : Path) (ev : DriveEvent) : Option (FileMonitorEvent × Path) :=
  if ev.path = [] then some (.changed, path)
  else if watches path ev.path then some (kind ev.type, ev.path)
  else none

/-- What the monitor with this address has heard, in order. -/
def heard (g : ℕ) (emissions : List Emission) : List (FileMonitorEvent × Path) :=
  emissions.filterMap fun em => if em.monitor = g then some (em.event, em.file) else none

/-- What the run enqueues. -/
def enqueued : List (Act KR) → List DriveEvent := List.filterMap fun
  | .enqueue ev => some ev
  | _ => none

/-- What is lost for good when the action is taken: the oldest notification of a full queue, the
reply that does not arrive, the queue of the session that is replaced. -/
def lost (s : System KR) : Act KR → List DriveEvent
  | .enqueue _ => if eventBufferSize ≤ s.poller.queue.length then s.poller.queue.take 1 else []
  | .tick _ .unanswered => s.poller.queue
  | .resume _ => s.poller.queue
  | _ => []

end Told

section Hearing

variable {g : ℕ} {d : Path}

theorem heard_append (l m : List Emission) : heard g (l ++ m) = heard g l ++ heard g m :=
  List.filterMap_append ..

/-- Of what every entry is told, only the entry of a live monitor is heard by it. -/
theorem heard_told (ms : Monitors) (hg : ⟨d, some g⟩ ∈ ms.entries)
    (f : Path → Option (FileMonitorEvent × Path)) :
    heard g (ms.entries.filterMap fun entry => entry.monitor.bind fun g' =>
      (f entry.path).map fun x => ⟨g', x.1, x.2⟩) = (f d).toList := by
  have hone : ∀ entry : ProtonMonitorEntry, ((entry.monitor.bind fun g' =>
      (f entry.path).map fun x => (⟨g', x.1, x.2⟩ : Emission)).bind fun em =>
        if em.monitor = g then some (em.event, em.file) else none) =
      if entry.monitor = some g then f entry.path else none := by
    intro entry
    cases entry.monitor with
    | none => rfl
    | some g' =>
      by_cases h : g' = g <;> cases f entry.path <;> simp [h]
  have key : ∀ entries : List ProtonMonitorEntry, (entries.filterMap (·.monitor)).Nodup →
      ⟨d, some g⟩ ∈ entries → (entries.filterMap fun entry =>
        if entry.monitor = some g then f entry.path else none) = (f d).toList := by
    intro entries hn hmem
    obtain ⟨before, after, rfl⟩ := List.append_of_mem hmem
    rw [List.filterMap_append] at hn
    change (_ ++ g :: after.filterMap (·.monitor)).Nodup at hn
    have hother : ∀ entries' : List ProtonMonitorEntry, g ∉ entries'.filterMap (·.monitor) →
        (entries'.filterMap fun entry =>
          if entry.monitor = some g then f entry.path else none) = [] := by
      intro entries' hn
      rw [List.filterMap_eq_nil_iff]
      intro entry he
      exact if_neg fun hm => hn (List.mem_filterMap.mpr ⟨entry, he, hm⟩)
    obtain ⟨-, hafter, hdisjoint⟩ := List.nodup_append.mp hn
    rw [List.filterMap_append, hother before fun h => hdisjoint g h g List.mem_cons_self rfl,
      List.filterMap_cons, hother after (List.nodup_cons.mp hafter).1, List.nil_append, if_pos rfl]
    cases f d <;> rfl
  rw [heard, List.filterMap_filterMap]
  simp only [hone]
  exact key ms.entries ms.distinct hg

theorem monitorEvent_eventJson (ev : DriveEvent) :
    monitorEvent (readEvent (eventJson ev).getObject).type = kind ev.type := by
  cases hk : ev.type <;> by_cases hp : ev.path = [] <;>
    simp [eventJson, JsonNode.getObject, readEvent, getStringMember, monitorEvent, kind, hk, hp]

/-- One notification, read back from the reply. -/
theorem heard_emit (ms : Monitors) (hg : ⟨d, some g⟩ ∈ ms.entries) (ev : DriveEvent) :
    let ev' := readEvent (eventJson ev).getObject
    heard g (emitOnMonitors ms.entries (monitorEvent ev'.type) (ev'.path.map String.toList)) =
      (told d ev).toList := by
  intro ev'
  rw [← heard_told ms hg fun path => told path ev, monitorEvent_eventJson,
    (readEvent_eventJson ev).2, emitOnMonitors]
  congr 2
  funext entry
  congr 1
  funext g'
  by_cases hp : ev.path = []
  · simp [told, hp]
  · by_cases hw : watches entry.path ev.path = true <;> simp [told, hp, hw]

/-- A reply tells a live monitor what it is to hear of the notifications in it, in order. -/
theorem heard_pollEvents (ms : Monitors) (hg : ⟨d, some g⟩ ∈ ms.entries)
    (evs : List DriveEvent) :
    heard g (pollEvents ms.entries (evs.map fun ev => readEvent (eventJson ev).getObject)) =
      evs.filterMap (told d) := by
  induction evs with
  | nil => rfl
  | cons ev evs ih =>
    rw [List.map_cons, pollEvents, List.flatMap_cons, heard_append, heard_emit ms hg ev]
    rw [pollEvents] at ih
    rw [ih]
    cases h : told d ev <;> simp [h]

end Hearing

section Runs

variable {g : ℕ} {d : Path} {s s' : System KR}

/-- What the monitor has heard, and what it is to hear of the notifications that wait. -/
def due (g : ℕ) (d : Path) (s : System KR) : List (FileMonitorEvent × Path) :=
  heard g s.emitted ++ s.poller.queue.filterMap (told d)

/-- What the action gives the monitor to hear. -/
def adds (d : Path) (a : Act KR) : List (FileMonitorEvent × Path) :=
  (enqueued [a]).filterMap (told d)

/-- The action loses nothing that the monitor is to hear. -/
def Keeps (d : Path) (s : System KR) (a : Act KR) : Prop := (lost s a).filterMap (told d) = []

/-- What a queue loses is at its front. -/
theorem enqueue_eq (queue : List DriveEvent) (ev : DriveEvent) :
    EventPoller.enqueue queue ev =
      queue.drop (if eventBufferSize ≤ queue.length then 1 else 0) ++ [ev] := by
  rw [EventPoller.enqueue]
  split_ifs <;> simp

/-- Of a list that loses its front, the rest is left; it is the same if nothing was lost. -/
theorem drop_due {α β : Type} (f : α → Option β) (front : List β) (l : List α) (n : ℕ) :
    (front ++ (l.drop n).filterMap f).Sublist (front ++ l.filterMap f) ∧
      (front ++ (l.drop n).filterMap f = front ++ l.filterMap f ↔ (l.take n).filterMap f = []) := by
  have hsplit : l.filterMap f = (l.take n).filterMap f ++ (l.drop n).filterMap f := by
    rw [← List.filterMap_append, List.take_append_drop]
  rw [hsplit]
  refine ⟨(List.sublist_append_right ..).append_left _, ?_⟩
  rw [List.append_cancel_left_eq, List.self_eq_append_left]

/-- The monitor stays known until it is finalised. -/
theorem mem_entries_step (hg : ⟨d, some g⟩ ∈ s.monitors.entries) {a : Act KR}
    (ha : a ≠ .finalise g) (hs : s.step a = some s') : ⟨d, some g⟩ ∈ s'.monitors.entries := by
  cases a with
  | enqueue ev =>
    cases hs
    exact hg
  | tick id x =>
    cases hs
    cases x <;> exact hg
  | register path g' =>
    rw [System.step] at hs
    split_ifs at hs
    cases hs
    exact List.mem_append_left _ hg
  | finalise g' =>
    cases hs
    refine List.mem_map.mpr ⟨_, hg, ?_⟩
    have hne : g ≠ g' := fun h => ha (h ▸ rfl)
    simp [cleared, hne]
  | resume p =>
    cases hs
    exact hg

/-- After a tick that goes through nothing is due any more. -/
theorem heard_answered (hg : ⟨d, some g⟩ ∈ s.monitors.entries) (id : ℤ) :
    heard g (s.tick id .answered).emitted = due g d s := by
  rw [System.tick, eventsRead_eq, heard_append, Option.elim_some, heard_pollEvents s.monitors hg,
    due]

theorem due_step (hg : ⟨d, some g⟩ ∈ s.monitors.entries) {a : Act KR} (hs : s.step a = some s') :
    (due g d s').Sublist (due g d s ++ adds d a) ∧
      (due g d s' = due g d s ++ adds d a ↔ Keeps d s a) := by
  have hlose : ∀ (t : System KR) (n : ℕ) (new : List DriveEvent), t.emitted = s.emitted →
      t.poller.queue = s.poller.queue.drop n ++ new → adds d a = new.filterMap (told d) →
      lost s a = s.poller.queue.take n → (due g d t).Sublist (due g d s ++ adds d a) ∧
        (due g d t = due g d s ++ adds d a ↔ Keeps d s a) := by
    intro t n new he hq hadds hlost
    obtain ⟨hsub, hiff⟩ := drop_due (told d) (heard g s.emitted) s.poller.queue n
    rw [Keeps, hlost, ← hiff, hadds, due, he, hq, List.filterMap_append, ← List.append_assoc]
    exact ⟨hsub.append_right _, List.append_left_inj _⟩
  have hsame : ∀ t : System KR, t.emitted = s.emitted → t.poller.queue = s.poller.queue →
      adds d a = [] → lost s a = [] → (due g d t).Sublist (due g d s ++ adds d a) ∧
        (due g d t = due g d s ++ adds d a ↔ Keeps d s a) := by
    intro t he hq hadds hlost
    exact hlose t 0 [] he (by simp [hq]) hadds (by simp [hlost])
  cases a with
  | enqueue ev =>
    cases hs
    refine hlose _ _ [ev] rfl (enqueue_eq _ ev) rfl ?_
    rw [lost]
    split_ifs <;> rfl
  | tick id x =>
    cases hs
    cases x with
    | unsent => exact hsame s rfl rfl rfl rfl
    | unanswered =>
      refine hlose _ s.poller.queue.length [] rfl ?_ rfl List.take_length.symm
      rw [List.drop_length]
      rfl
    | answered =>
      have hdue : due g d (s.tick id .answered) = due g d s := by
        rw [due, heard_answered hg]
        exact List.append_nil _
      rw [hdue, adds, Keeps]
      simp [enqueued, lost]
  | register path g' =>
    rw [System.step] at hs
    split_ifs at hs
    cases hs
    exact hsame _ rfl rfl rfl rfl
  | finalise g' =>
    cases hs
    exact hsame _ rfl rfl rfl rfl
  | resume p =>
    cases hs
    refine hlose _ s.poller.queue.length [] rfl ?_ rfl List.take_length.symm
    rw [List.drop_length]
    rfl

theorem flatMap_adds (d : Path) (acts : List (Act KR)) :
    acts.flatMap (adds d) = (enqueued acts).filterMap (told d) := by
  induction acts with
  | nil => rfl
  | cons a acts ih =>
    rw [List.flatMap_cons, ih, adds, enqueued, ← List.filterMap_append, ← List.filterMap_append]
    rfl

/-- A monitor hears of what waits and of what is enqueued while it lives in order, never twice and
never anything else. When a tick has gone through it has heard all of it if and only if no step
before has lost a notification that concerns it: no full queue has dropped one, no reply was lost
and no other mount has replaced the session. -/
theorem heard_exactly_iff (hg : ⟨d, some g⟩ ∈ s.monitors.entries) {acts : List (Act KR)}
    (hlive : .finalise g ∉ acts) (id : ℤ)
    (hrun : (acts ++ [Act.tick id .answered]).foldlM System.step s = some s') :
    (heard g s'.emitted).Sublist
        (heard g s.emitted ++ (s.poller.queue ++ enqueued acts).filterMap (told d)) ∧
      (heard g s'.emitted =
          heard g s.emitted ++ (s.poller.queue ++ enqueued acts).filterMap (told d) ↔
        Along System.step (Keeps d) s acts) := by
  rw [List.foldlM_append] at hrun
  obtain ⟨s₁, hs₁, htick⟩ := Option.bind_eq_some_iff.mp hrun
  have hne : ∀ a ∈ acts, a ≠ .finalise g := fun a ha h => hlive (h ▸ ha)
  have hkept : ∀ (t : System KR) a t', ⟨d, some g⟩ ∈ t.monitors.entries → a ≠ .finalise g →
      t.step a = some t' → ⟨d, some g⟩ ∈ t'.monitors.entries :=
    fun t a t' h ha hs => mem_entries_step h ha hs
  have hsub : ∀ (t : System KR) a t', ⟨d, some g⟩ ∈ t.monitors.entries → a ≠ .finalise g →
      t.step a = some t' → (due g d t').Sublist (due g d t ++ adds d a) :=
    fun t a t' h _ hs => (due_step h hs).1
  have heq : ∀ (t : System KR) a t', ⟨d, some g⟩ ∈ t.monitors.entries → a ≠ .finalise g →
      t.step a = some t' → (due g d t' = due g d t ++ adds d a ↔ Keeps d t a) :=
    fun t a t' h _ hs => (due_step h hs).2
  have hdue : heard g s'.emitted = due g d s₁ := by
    cases htick
    exact heard_answered (foldlM_invariant hkept hne hg hs₁) id
  have hall : heard g s.emitted ++ (s.poller.queue ++ enqueued acts).filterMap (told d) =
      due g d s ++ acts.flatMap (adds d) := by
    rw [flatMap_adds, due, List.append_assoc, List.filterMap_append]
  rw [hdue, hall]
  exact due_run hkept hsub heq hne hg hs₁

/-- A view of the root. -/
def rootView : System Unit where
  poller := ⟨DriveSession.newSession "root" none, [], ['a'], []⟩
  monitors := ⟨[⟨['/'], some 1⟩], by simp, by simp⟩
  emitted := []

theorem heard_exactly_iff_lostReply :
    let acts : List (Act Unit) := [.enqueue ⟨.created, "A", "/a".toList⟩, .tick 1 .unanswered,
      .enqueue ⟨.deleted, "B", "/b".toList⟩]
    ∃ s', (acts ++ [Act.tick 2 .answered]).foldlM System.step rootView = some s' ∧
      heard 1 s'.emitted ≠ (enqueued acts).filterMap (told ['/']) := by
  intro acts
  refine ⟨_, rfl, fun h => ?_⟩
  have hlive : .finalise 1 ∉ acts := by simp [acts]
  have hiff := heard_exactly_iff (d := ['/']) (s := rootView) List.mem_cons_self hlive 2 rfl
  have halong := hiff.2.mp h
  have hkeeps := (halong.2 _ rfl).1
  rw [Keeps] at hkeeps
  exact absurd hkeeps (by decide)

end Runs

end ProtonDrive.NotificationDelivery
