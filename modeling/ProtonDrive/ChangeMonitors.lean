import ProtonDrive.PollLoop
import ProtonDrive.EventReplay
import ProtonDrive.ReadHandles

/-!
# From the notification queue to the monitors

The `GetEvents` handler drains the queue of the poller; `proton_rpc_get_events` reads the reply
and `emit_on_monitors` of `gvfsbackendproton.c` hands each notification to the monitors it
concerns. A monitor is told apart by its address, which is gone once it is finalised.
-/

namespace ProtonDrive.ChangeMonitors
open SlashPaths DriveApi DriveSession EventPoller PollLoop JsonNodes RpcClient RpcConnections
  ReadHandles

section Helper

variable {KR : Type}

/-- `rpc.Event` as JSON; an empty path is omitted. -/
def eventJson (e : DriveEvent) : JsonNode :=
  let type := match e.type with
    | .changed => "changed"
    | .deleted => "deleted"
    | .created => "created"
  .object ([("type", .string type), ("link_id", .string e.linkID)] ++
    if e.path = [] then [] else [("path", .string (String.ofList e.path))])

/-- `DrainEvents`: without a poller there is nothing to drain. -/
def drainEvents (poller : Option (Poller KR)) : List DriveEvent × Option (Poller KR) :=
  match poller with
  | none => ([], none)
  | some p => (p.queue, some { p with queue := [] })

/-- The `GetEvents` handler, with the poller it leaves behind. -/
def getEventsHandler (loggedIn : Bool) (poller : Option (Poller KR)) :
    Except RPCError (Option JsonNode) × Option (Poller KR) :=
  if loggedIn then
    let (drained, poller) := drainEvents poller
    (.ok (some (.object [("events", .array (drained.map eventJson))])), poller)
  else (.error notAuth, poller)

/-- All jobs of a poll, one after the other. -/
def runJobs (C : Crypto KR) (w : World) : List Job → Poller KR → Option (Poller KR)
  | [], p => some p
  | j :: js, p => (j.exec C w p).bind (runJobs C w js)

end Helper

section Backend

structure ProtonEvent where
  type : Option String
  linkID : Option String
  path : Option String
  deriving DecidableEq, Repr

def readEvent (ev : ObjectRef) : ProtonEvent where
  type := getStringMember ev "type"
  linkID := getStringMember ev "link_id"
  path := if hasMember ev "path" then getStringMember ev "path" else none

/-- What `proton_rpc_get_events` makes of a response. -/
def readEvents (resp : JsonObject) : List ProtonEvent :=
  ((getArrayMember (getObjectMember (some resp) "result") "events").getD []).map
    fun e => readEvent e.getObject

inductive FileMonitorEvent
  | changed | deleted | created
  deriving DecidableEq, Repr

structure ProtonMonitorEntry where
  path : Path
  monitor : Option ℕ
  deriving DecidableEq, Repr

/-- The registered monitors: absolute paths, no monitor twice. -/
structure Monitors where
  entries : List ProtonMonitorEntry
  absolute : ∀ entry ∈ entries, entry.path.head? = some '/'
  distinct : (entries.filterMap (·.monitor)).Nodup

/-- One call of `g_vfs_monitor_emit_event`. -/
structure Emission where
  monitor : ℕ
  event : FileMonitorEvent
  file : Path
  deriving DecidableEq, Repr

/-- Whether a monitor is told about a path: its own, or one below it. -/
def watches (path filePath : Path) : Bool :=
  path == filePath ||
    (path.isPrefixOf filePath &&
      (path.getLast? == some '/' || filePath[path.length]? == some '/'))

/-- `emit_on_monitors`; without a path every watcher is told about its own. -/
def emitOnMonitors (entries : List ProtonMonitorEntry) (eventType : FileMonitorEvent)
    (filePath : Option Path) : List Emission :=
  entries.filterMap fun entry =>
    entry.monitor.bind fun g =>
      match filePath with
      | none => some ⟨g, .changed, entry.path⟩
      | some f => if watches entry.path f then some ⟨g, eventType, f⟩ else none

def monitorEvent (type : Option String) : FileMonitorEvent :=
  if type = some "deleted" then .deleted
  else if type = some "created" then .created
  else .changed

/-- The loop of `poll_events_cb` over the events of one reply. -/
def pollEvents (entries : List ProtonMonitorEntry) (events : List ProtonEvent) : List Emission :=
  events.flatMap fun ev =>
    emitOnMonitors entries (monitorEvent ev.type) (ev.path.map String.toList)

/-- At least one event for the monitor with address `g`. -/
def Delivered (g : ℕ) (emissions : List Emission) : Prop := ∃ em ∈ emissions, em.monitor = g

/-- Every monitor that is not finalised gets at least one event. -/
def ReachesAll (entries : List ProtonMonitorEntry) (emissions : List Emission) : Prop :=
  ∀ entry ∈ entries, ∀ g, entry.monitor = some g → Delivered g emissions

/-- Entries with the same live monitor are one entry. -/
theorem Monitors.eq_of_monitor (ms : Monitors) {a b : ProtonMonitorEntry} {g : ℕ}
    (ha : a ∈ ms.entries) (hb : b ∈ ms.entries) (hga : a.monitor = some g)
    (hgb : b.monitor = some g) : a = b := by
  have key : ∀ entries : List ProtonMonitorEntry, (entries.filterMap (·.monitor)).Nodup →
      a ∈ entries → b ∈ entries → a = b := by
    intro entries hn ha hb
    induction entries with
    | nil => cases ha
    | cons e es ih =>
      have once : ∀ x, x ∈ es → x.monitor = some g → e.monitor ≠ some g := by
        intro x hx hgx hge
        rw [List.filterMap_cons_some hge] at hn
        exact (List.nodup_cons.mp hn).1 (List.mem_filterMap.mpr ⟨x, hx, hgx⟩)
      rcases List.mem_cons.mp ha with rfl | ha' <;> rcases List.mem_cons.mp hb with rfl | hb'
      · rfl
      · exact absurd hga (once b hb' hgb)
      · exact absurd hgb (once a ha' hga)
      · refine ih ?_ ha' hb'
        exact hn.sublist ((List.sublist_cons_self e es).filterMap _)
  exact key ms.entries ms.distinct ha hb

/-- A notification with a path reaches exactly the live monitors that watch the path. -/
theorem delivered_path_iff (ms : Monitors) (eventType : FileMonitorEvent) (f : Path)
    {entry : ProtonMonitorEntry} (he : entry ∈ ms.entries) {g : ℕ} (hg : entry.monitor = some g) :
    Delivered g (emitOnMonitors ms.entries eventType (some f)) ↔ watches entry.path f = true := by
  simp only [Delivered, emitOnMonitors, List.mem_filterMap, Option.bind_eq_some_iff,
    Option.ite_none_right_eq_some, Option.some.injEq]
  constructor
  · rintro ⟨em, ⟨e, hem, g', hg', hw, rfl⟩, rfl⟩
    rwa [ms.eq_of_monitor he hem hg hg']
  · intro hw
    exact ⟨_, ⟨entry, he, g, hg, hw, rfl⟩, rfl⟩

/-- A notification without a path reaches every live monitor. -/
theorem reachesAll_pathless (entries : List ProtonMonitorEntry) (eventType : FileMonitorEvent) :
    ReachesAll entries (emitOnMonitors entries eventType none) := by
  intro entry he g hg
  exact ⟨_, List.mem_filterMap.mpr ⟨entry, he, by rw [hg]; rfl⟩, rfl⟩

/-- A reply tells a monitor what its notifications tell it, one by one. -/
theorem delivered_pollEvents_iff (entries : List ProtonMonitorEntry) (events : List ProtonEvent)
    (g : ℕ) : Delivered g (pollEvents entries events) ↔
      ∃ ev ∈ events, Delivered g
        (emitOnMonitors entries (monitorEvent ev.type) (ev.path.map String.toList)) := by
  simp only [Delivered, pollEvents, List.mem_flatMap]
  constructor
  · rintro ⟨em, ⟨ev, hev, hem⟩, hg⟩
    exact ⟨ev, hev, em, hem, hg⟩
  · rintro ⟨ev, hev, em, hem, hg⟩
    exact ⟨em, ⟨ev, hev, hem⟩, hg⟩

/-- Only the root is told about the root. -/
theorem watches_root {path : Path} (habs : path.head? = some '/') :
    watches path ['/'] = true ↔ path = ['/'] := by
  constructor
  · intro hw
    simp only [watches, Bool.or_eq_true, Bool.and_eq_true, beq_iff_eq,
      List.isPrefixOf_iff_prefix] at hw
    rcases hw with h | ⟨h, -⟩
    · exact h
    · rcases List.prefix_cons_iff.mp h with rfl | ⟨t, rfl, ht⟩
      · cases habs
      · rw [List.prefix_nil.mp ht]
  · rintro rfl
    rfl

end Backend

section Refresh

variable {KR : Type} {C : Crypto KR} {w : World}

/-- The answers on which `poll` asks for a full refresh. -/
def Refreshes (fetched : Option VolumeEvent) (latest : Option EventID) : Prop :=
  ∃ ev, fetched = some ev ∧
    (ev.eventID = [] ∧ latest.isSome ∨ ev.eventID ≠ [] ∧ ev.refresh = true)

theorem poll_refreshes {fetched : Option VolumeEvent} {latest : Option EventID}
    (h : Refreshes fetched latest) (eventID : EventID) :
    ∃ id, (PollLoop.poll eventID fetched latest).1 = refreshJobs id := by
  obtain ⟨ev, rfl, ⟨hid, hl⟩ | ⟨hid, hr⟩⟩ := h
  · obtain ⟨newID, rfl⟩ := Option.isSome_iff_exists.mp hl
    exact ⟨newID, by simp [PollLoop.poll, hid]⟩
  · exact ⟨ev.eventID, by simp [PollLoop.poll, hid, hr]⟩

theorem runJobs_refresh (id : EventID) (p : Poller KR) :
    runJobs C w (refreshJobs id) p =
      some { p with
        session := p.session.invalidateAll
        queue := EventPoller.enqueue p.queue rootChanged } := rfl

/-- An event read back from its JSON: only an empty path is lost. -/
theorem readEvent_eventJson (e : DriveEvent) :
    (readEvent (eventJson e).getObject).linkID = some e.linkID ∧
      (readEvent (eventJson e).getObject).path =
        if e.path = [] then none else some (String.ofList e.path) := by
  by_cases hp : e.path = [] <;>
    simp [eventJson, JsonNode.getObject, readEvent, hasMember, getStringMember, hp]

/-- What the C side reads when it drains a poller: the request is answered with `id`. -/
def eventsRead (id : ℤ) (p : Poller KR) : Option (List ProtonEvent) :=
  (readResponse (response id (getEventsHandler true (some p)).1)).value.map readEvents

theorem eventsRead_eq (id : ℤ) (p : Poller KR) :
    eventsRead id p = some (p.queue.map fun e => readEvent (eventJson e).getObject) := by
  simp [eventsRead, getEventsHandler, drainEvents, response, readResponse, hasMember, readEvents,
    getObjectMember, getArrayMember, Function.comp_def]

theorem eventPath_rootChanged :
    (readEvent (eventJson rootChanged).getObject).path.map String.toList = some ['/'] := by
  rw [(readEvent_eventJson rootChanged).2]
  simp [rootChanged]

theorem reachesAll_root_iff (ms : Monitors) (eventType : FileMonitorEvent) :
    ReachesAll ms.entries (emitOnMonitors ms.entries eventType (some ['/'])) ↔
      ∀ entry ∈ ms.entries, entry.monitor.isSome → entry.path = ['/'] := by
  constructor
  · intro h entry he hlive
    obtain ⟨g, hg⟩ := Option.isSome_iff_exists.mp hlive
    have hw := (delivered_path_iff ms eventType ['/'] he hg).mp (h entry he g hg)
    exact (watches_root (ms.absolute entry he)).mp hw
  · intro h entry he g hg
    have hroot : entry.path = ['/'] := h entry he (by rw [hg]; rfl)
    exact (delivered_path_iff ms eventType ['/'] he hg).mpr
      ((watches_root (ms.absolute entry he)).mpr hroot)

/-- A full refresh, drained before the queue overflows, reaches every live monitor exactly when
all of them watch the root. `later` is what is enqueued between the poll and the drain. -/
theorem refresh_reaches_all_iff (ms : Monitors) {fetched : Option VolumeEvent}
    {latest : Option EventID} (hr : Refreshes fetched latest) {p p' : Poller KR}
    (hpoll : runJobs C w (PollLoop.poll p.eventID fetched latest).1 p = some p')
    (s : Session KR) {later : List DriveEvent}
    (hroom : p'.queue.length + later.length ≤ eventBufferSize) (id : ℤ) :
    p'.session = p.session.invalidateAll ∧ ∃ events ev,
      eventsRead id { p' with session := s, queue := later.foldl EventPoller.enqueue p'.queue } =
        some events ∧
      p'.queue.getLast? = some rootChanged ∧ events[p'.queue.length - 1]? = some ev ∧
      (ReachesAll ms.entries
          (emitOnMonitors ms.entries (monitorEvent ev.type) (ev.path.map String.toList)) ↔
        ∀ entry ∈ ms.entries, entry.monitor.isSome → entry.path = ['/']) := by
  obtain ⟨newID, hjobs⟩ := poll_refreshes hr p.eventID
  rw [hjobs, runJobs_refresh] at hpoll
  obtain rfl := Option.some.inj hpoll
  refine ⟨rfl, _, readEvent (eventJson rootChanged).getObject, eventsRead_eq id _, ?_, ?_, ?_⟩
  · simp [EventPoller.enqueue]
  · rw [EventReplay.enqueue_all hroom]
    simp [EventPoller.enqueue]
  · rw [eventPath_rootChanged]
    exact reachesAll_root_iff ms _

/-- A view of a folder that is open while the server asks for a refresh. -/
def openFolder : Monitors where
  entries := [⟨"/a".toList, some 1⟩]
  absolute := by simp
  distinct := by simp

theorem refresh_reaches_all_fails :
    ¬ ∀ (ms : Monitors) (fetched : Option VolumeEvent) (latest : Option EventID)
      (p p' : Poller Unit) (events : List ProtonEvent) (ev : ProtonEvent),
      Refreshes fetched latest →
      runJobs Crypto.plain (World.steady (serverOf []))
        (PollLoop.poll p.eventID fetched latest).1 p = some p' →
      eventsRead 1 p' = some events → events[p'.queue.length - 1]? = some ev →
      ReachesAll ms.entries
        (emitOnMonitors ms.entries (monitorEvent ev.type) (ev.path.map String.toList)) := by
  intro h
  have hr : Refreshes (some ⟨['b'], true, []⟩) none := ⟨_, rfl, .inr ⟨nofun, rfl⟩⟩
  let p : Poller Unit := ⟨newSession "root" none, [], ['a'], []⟩
  have hreach := h openFolder _ none p _ _ (readEvent (eventJson rootChanged).getObject) hr rfl
    (eventsRead_eq 1 _) rfl
  rw [eventPath_rootChanged, reachesAll_root_iff] at hreach
  have hpath := hreach ⟨"/a".toList, some 1⟩ List.mem_cons_self rfl
  simp at hpath

theorem refresh_reaches_all_openRoot :
    let ms : Monitors := ⟨[⟨['/'], some 1⟩], by simp, by simp⟩
    let p : Poller Unit := ⟨newSession "root" none, [], ['a'], []⟩
    ∃ events ev, eventsRead 1 { p with
        session := p.session.invalidateAll, queue := [rootChanged] } = some events ∧
      events[0]? = some ev ∧ ReachesAll ms.entries
        (emitOnMonitors ms.entries (monitorEvent ev.type) (ev.path.map String.toList)) := by
  intro ms p
  have hr : Refreshes (some ⟨['b'], true, []⟩) none := ⟨_, rfl, .inr ⟨nofun, rfl⟩⟩
  have hroom : [rootChanged].length + ([] : List DriveEvent).length ≤ eventBufferSize := by decide
  obtain ⟨-, events, ev, hread, -, hev, hiff⟩ := refresh_reaches_all_iff (C := Crypto.plain)
    (w := World.steady (serverOf [])) ms hr (p := p) rfl p.session.invalidateAll hroom 1
  exact ⟨events, ev, hread, hev, hiff.mpr (by simp [ms])⟩

end Refresh

end ProtonDrive.ChangeMonitors
