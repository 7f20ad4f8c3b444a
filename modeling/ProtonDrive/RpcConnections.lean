import ProtonDrive.RpcClient
import Mathlib.Logic.Function.Basic

/-!
# One client, many threads, and the helper's connections

`call` of `proton-rpc.c` as threads take it step by step under the client's mutex, and
`handleConn` of `server.go` on every connection that was ever opened. A response carries no
more than the id of its request, and the client does not look at it; what keeps responses
apart is that nothing is pending on the connection when a request is sent.
-/

namespace ProtonDrive.RpcConnections
open JsonNodes RpcClient

section Server

/-- `RPCError` without its details. -/
structure RPCError where
  code : ℤ
  message : String
  deriving DecidableEq, Repr

/-- `Response` as `encoding/json` writes it: a nil result is omitted. -/
def response (id : ℤ) : Except RPCError (Option JsonNode) → JsonObject
  | .ok result => ("id", .int id) :: (result.map fun r => ("result", r)).toList
  | .error e => [("id", .int id),
      ("error", .object [("code", .int e.code), ("message", .string e.message)])]

/-- What the registered handlers return, each by the name of its method. -/
abbrev Handlers := String → Option (List (String × JsonNode) → Except RPCError (Option JsonNode))

def dispatch (handlers : Handlers) (id : ℕ) (method : String)
    (params : List (String × JsonNode)) : JsonObject :=
  match handlers method with
  | none => response id (.error ⟨-32603, "unknown method: " ++ method⟩)
  | some h => response id (h params)

/-- Every response carries the id of its request. -/
theorem dispatch_id (handlers : Handlers) (id : ℕ) (method : String)
    (params : List (String × JsonNode)) :
    getIntMember (some (dispatch handlers id method params)) "id" = id := by
  have hid : ∀ r, getIntMember (some (response id r)) "id" = id := by
    rintro (e | r) <;> simp [response, getIntMember]
  simp only [dispatch]
  split <;> exact hid _

/-- A request on the wire, numbered by the call that made it. -/
structure Request where
  call : ℕ
  id : ℕ
  method : String
  params : List (String × JsonNode)

/-- The helper produced the response for the request. -/
def Answers (r : Request) (resp : JsonObject) : Prop :=
  ∃ handlers, resp = dispatch handlers r.id r.method r.params

/-- A reply, with the request it answers and the moment it was produced. -/
structure Reply where
  request : Request
  response : JsonObject
  date : ℕ

/-- A line from the client. -/
inductive Line
  | request (r : Request)
  | malformed

def Line.toList : Line → List Request
  | .request r => [r]
  | .malformed => []

/-- One connection: the lines that the scanner has not read yet, the request that it offers on
the channel, the one in a handler, and the replies that the client has not read yet. The
client's last write may have left an unfinished line. -/
structure Connection where
  unfinished : Bool
  lines : List Line
  scanned : Option Request
  handling : Option Request
  replies : List Reply
  closed : Bool

namespace Connection

def fresh : Connection := ⟨false, [], none, none, [], false⟩

/-- A request that continues an unfinished line is lost with it, and an id beyond the signed
range arrives as a negative number, which no request may have. -/
def send (c : Connection) (r : Request) : Connection :=
  { c with
    unfinished := false
    lines := c.lines ++ [if c.unfinished ∨ 2 ^ 63 ≤ r.id then .malformed else .request r] }

/-- The requests whose replies the client may still read, in the order of the replies. -/
def pending (c : Connection) : List Request :=
  c.replies.map Reply.request ++ c.handling.toList ++ c.scanned.toList ++
    c.lines.flatMap Line.toList

/-- A step of `handleConn`: its scanner goroutine reads lines, skips malformed ones and waits
until the last request is taken; its loop takes requests one by one and writes one reply for
each. Either may end the connection at any time. -/
inductive Serves (date : ℕ) : Connection → Connection → Prop
  | skip {c : Connection} {lines : List Line} (ho : c.closed = false) (hs : c.scanned = none)
      (hl : c.lines = .malformed :: lines) : Serves date c { c with lines := lines }
  | scan {c : Connection} {r : Request} {lines : List Line} (ho : c.closed = false)
      (hs : c.scanned = none) (hl : c.lines = .request r :: lines) :
      Serves date c { c with lines := lines, scanned := some r }
  | take {c : Connection} {r : Request} (ho : c.closed = false) (hh : c.handling = none)
      (hs : c.scanned = some r) : Serves date c { c with scanned := none, handling := some r }
  | reply {c : Connection} {r : Request} (handlers : Handlers) (ho : c.closed = false)
      (hh : c.handling = some r) :
      Serves date c { c with
        handling := none
        replies := c.replies ++ [⟨r, dispatch handlers r.id r.method r.params, date⟩] }
  | close {c : Connection} : Serves date c { c with closed := true }

variable {c c' : Connection} {date : ℕ}

@[simp] theorem pending_fresh : fresh.pending = [] := rfl

/-- Serving moves requests on, in order. -/
theorem Serves.pending (h : Serves date c c') : c'.pending = c.pending := by
  cases h with
  | skip ho hs hl => simp [Connection.pending, hl, Line.toList]
  | scan ho hs hl => simp [Connection.pending, hs, hl, Line.toList]
  | take ho hh hs => simp [Connection.pending, hs, hh]
  | reply handlers ho hh => simp [Connection.pending, hh]
  | close => rfl

theorem Serves.open (h : Serves date c c') (ho : c'.closed = false) : c.closed = false := by
  cases h with
  | close => cases ho
  | skip h | scan h | take h | reply _ h => exact h

/-- A reply is new only if it is dispatched now. -/
theorem Serves.replies (h : Serves date c c') {p : Reply} (hp : p ∈ c'.replies) :
    p ∈ c.replies ∨ (p.date = date ∧ Answers p.request p.response) := by
  cases h with
  | reply handlers ho hh =>
    rcases List.mem_append.mp hp with hp | hp
    · exact .inl hp
    · rw [List.mem_singleton] at hp
      exact .inr ⟨hp ▸ rfl, handlers, hp ▸ rfl⟩
  | skip | scan | take | close => exact .inl hp

/-- After a request at most that request is pending. -/
theorem pending_send (h : c.pending = []) (r : Request) :
    (c.send r).pending = [] ∨ (c.send r).pending = [r] := by
  have hsend : (c.send r).pending = c.pending ++
      (if c.unfinished ∨ 2 ^ 63 ≤ r.id then Line.malformed else .request r).toList := by
    simp [Connection.pending, send]
  rw [hsend, h]
  split_ifs
  · exact .inl rfl
  · exact .inr rfl

/-- A reply that is read answers the only pending request, and leaves nothing behind. -/
theorem pending_receive {r : Request} {p : Reply} {rest : List Reply}
    (h : c.pending = [] ∨ c.pending = [r]) (hp : c.replies = p :: rest) :
    p.request = r ∧ ({ c with replies := rest } : Connection).pending = [] ∧ rest = [] := by
  have hcons : c.pending = p.request :: ({ c with replies := rest } : Connection).pending := by
    simp [Connection.pending, hp]
  rcases h with h | h
  · cases hcons.symm.trans h
  · obtain ⟨hr, hrest⟩ := List.cons.inj (hcons.symm.trans h)
    refine ⟨hr, hrest, ?_⟩
    have happend : rest.map Reply.request ++ (c.handling.toList ++ c.scanned.toList ++
        c.lines.flatMap Line.toList) = [] := by
      simpa [Connection.pending] using hrest
    exact List.map_eq_nil_iff.mp (List.append_eq_nil_iff.mp happend).1

end Connection

end Server

section Client

/-- How far a thread is in `call`. -/
inductive Phase
  | idle
  | waiting (method : String) (params : List (String × JsonNode))
  | sending (r : Request)
  | receiving (r : Request)
  | reconnecting (r : Request)

/-- The request of a thread that holds the lock. -/
def Phase.request : Phase → Option Request
  | .sending r | .receiving r | .reconnecting r => some r
  | _ => none

/-- A call that has read a reply. -/
structure Answer where
  request : Request
  reply : Reply

/-- What the call returns: an error if the reply reports one, else the response. -/
def Answer.returned (a : Answer) : Returned JsonObject := readResponse a.reply.response

/-- The client with its threads, and every connection that was opened, the current one by its
number. `calls` counts the calls that have sent or tried to send, `clock` the helper's steps. -/
structure State (T : Type) where
  threads : T → Phase
  lock : Option T
  nextID : ℕ
  calls : ℕ
  conns : ℕ → Connection
  opened : ℕ
  current : Option ℕ
  clock : ℕ
  answers : List Answer

variable {T : Type} [DecidableEq T]

/-- After `proton_rpc_new`. -/
def State.initial : State T :=
  ⟨fun _ => .idle, none, 1, 0, fun _ => .fresh, 1, some 0, 0, []⟩

def State.setPhase (s : State T) (t : T) (phase : Phase) : State T :=
  { s with threads := Function.update s.threads t phase }

def State.setConn (s : State T) (c : ℕ) (conn : Connection) : State T :=
  { s with conns := Function.update s.conns c conn }

/-- Unlock and return. -/
def State.leave (s : State T) (t : T) : State T := { s.setPhase t .idle with lock := none }

/-- Take the lock and number the request. -/
def State.start (s : State T) (t : T) (method : String) (params : List (String × JsonNode)) :
    State T :=
  let r : Request := ⟨s.calls, s.nextID, method, params⟩
  { s.setPhase t (.sending r) with
    lock := some t
    nextID := (s.nextID + 1) % 2 ^ 64
    calls := s.calls + 1 }

/-- A reply is read by the call of this request. -/
def State.answer (s : State T) (c : ℕ) (r : Request) (p : Reply) (rest : List Reply) : State T :=
  { s.setConn c { s.conns c with replies := rest } with answers := s.answers ++ [⟨r, p⟩] }

def State.connect (s : State T) : State T :=
  { s.setConn s.opened .fresh with
    opened := s.opened + 1
    current := some s.opened }

/-- One step of a thread or of the helper. A send succeeds only on a connection that is open,
and a read fails, other than by cancellation, only on one that the helper has closed. -/
inductive Step : State T → State T → Prop
  | issue {s : State T} {t : T} (method : String) (params : List (String × JsonNode))
      (ht : s.threads t = .idle) : Step s (s.setPhase t (.waiting method params))
  | lock {s : State T} {t : T} {method : String} {params : List (String × JsonNode)}
      (ht : s.threads t = .waiting method params) (hl : s.lock = none) :
      Step s (s.start t method params)
  | send {s : State T} {t : T} {r : Request} {c : ℕ} (ht : s.threads t = .sending r)
      (hc : s.current = some c) (ho : (s.conns c).closed = false) :
      Step s ((s.setConn c ((s.conns c).send r)).setPhase t (.receiving r))
  | sendFails {s : State T} {t : T} {r : Request} (ht : s.threads t = .sending r) :
      Step s (s.leave t)
  | sendBreaksOff {s : State T} {t : T} {r : Request} {c : ℕ} (ht : s.threads t = .sending r)
      (hc : s.current = some c) :
      Step s ((s.setConn c { s.conns c with unfinished := true }).leave t)
  | receive {s : State T} {t : T} {r : Request} {c : ℕ} {p : Reply} {rest : List Reply}
      (ht : s.threads t = .receiving r) (hc : s.current = some c)
      (hp : (s.conns c).replies = p :: rest) : Step s ((s.answer c r p rest).leave t)
  | receiveFails {s : State T} {t : T} {r : Request} {c : ℕ} (ht : s.threads t = .receiving r)
      (hc : s.current = some c) (ho : (s.conns c).closed = true) : Step s (s.leave t)
  | cancel {s : State T} {t : T} {r : Request} (ht : s.threads t = .receiving r) :
      Step s ({ s with current := none }.setPhase t (.reconnecting r))
  | reconnect {s : State T} {t : T} {r : Request} (ht : s.threads t = .reconnecting r) :
      Step s (s.connect.leave t)
  | reconnectFails {s : State T} {t : T} {r : Request} (ht : s.threads t = .reconnecting r) :
      Step s (s.leave t)
  | serve {s : State T} {c : ℕ} {conn : Connection} (hc : c < s.opened)
      (h : Connection.Serves s.clock (s.conns c) conn) :
      Step s { s.setConn c conn with clock := s.clock + 1 }

inductive Reachable : State T → Prop
  | initial : Reachable State.initial
  | step {s s' : State T} (hr : Reachable s) (h : Step s s') : Reachable s'

end Client

section Exclusion

variable {T : Type} {s s' s₁ : State T} {t u : T} {r : Request}

/-- Nothing is pending on the connection that requests are sent on. -/
def Clean (s : State T) : Prop :=
  ∀ c, s.current = some c → (s.conns c).closed = false → (s.conns c).pending = []

/-- Only the thread that holds the lock is in a call, and what is pending on its connection,
while it waits for a reply, is its own request. -/
structure Exclusive (s : State T) : Prop where
  holder : ∀ t r, (s.threads t).request = some r → s.lock = some t
  clean : (∀ t r, s.threads t ≠ .receiving r) → Clean s
  own : ∀ t r, s.threads t = .receiving r → ∀ c, s.current = some c →
    (s.conns c).pending = [] ∨ (s.conns c).pending = [r]

theorem Exclusive.eq_holder (h : Exclusive s) {r' : Request} (ht : (s.threads t).request = some r)
    (hu : (s.threads u).request = some r') : u = t :=
  Option.some.inj ((h.holder u r' hu).symm.trans (h.holder t r ht))

/-- The holder of the lock finds its connection clean until it has sent its request. -/
theorem Exclusive.clean_of_holder (h : Exclusive s) (ht : (s.threads t).request = some r)
    (hn : ∀ r', s.threads t ≠ .receiving r') : Clean s := by
  refine h.clean fun u r' hu => ?_
  obtain rfl := h.eq_holder (u := u) ht (by rw [hu]; rfl)
  exact hn r' hu

theorem exclusive_initial : Exclusive (State.initial : State T) :=
  ⟨nofun, fun _ _ hc _ => by cases hc; rfl, nofun⟩

/-- The helper changes nothing in what is pending. -/
theorem Exclusive.serve (h : Exclusive s) {c : ℕ} {conn : Connection}
    (hserves : Connection.Serves s.clock (s.conns c) conn) :
    Exclusive { s.setConn c conn with clock := s.clock + 1 } := by
  have hconn : ∀ d, ((s.setConn c conn).conns d).pending = (s.conns d).pending ∧
      (((s.setConn c conn).conns d).closed = false → (s.conns d).closed = false) := by
    intro d
    by_cases hdc : d = c
    · subst hdc
      simp only [State.setConn, Function.update_self]
      exact ⟨hserves.pending, hserves.open⟩
    · simp only [State.setConn, Function.update_of_ne hdc]
      exact ⟨trivial, id⟩
  refine ⟨h.holder, fun hn d hd ho => ?_, fun u r hu d hd => ?_⟩
  · exact (hconn d).1.trans (h.clean hn d hd ((hconn d).2 ho))
  · exact (hconn d).1 ▸ h.own u r hu d hd

variable [DecidableEq T]

theorem State.threads_setPhase (s : State T) (t u : T) (phase : Phase) :
    (s.setPhase t phase).threads u = if u = t then phase else s.threads u :=
  Function.update_apply _ _ _ _

theorem State.request_leave (hth : s₁.threads = s.threads)
    (hu : ((s₁.leave t).threads u).request = some r) : u ≠ t ∧ (s.threads u).request = some r := by
  have hphase := s₁.threads_setPhase t u .idle
  rw [show (s₁.leave t).threads u = _ from hphase] at hu
  split_ifs at hu with hut
  · cases hu
  · exact ⟨hut, hth ▸ hu⟩

/-- When the holder leaves, nobody is in a call. -/
theorem Exclusive.leave (h : Exclusive s) (ht : (s.threads t).request = some r)
    (hth : s₁.threads = s.threads) (hc : Clean s₁) : Exclusive (s₁.leave t) := by
  have hnone : ∀ u r', ((s₁.leave t).threads u).request ≠ some r' := by
    intro u r' hu
    obtain ⟨hne, hu⟩ := State.request_leave hth hu
    exact hne (h.eq_holder ht hu)
  refine ⟨fun u r' hu => absurd hu (hnone u r'), fun _ => hc, fun u r' hu => ?_⟩
  exact absurd (by rw [hu]; rfl) (hnone u r')

/-- A thread that takes the free lock is the only one in a call. -/
theorem Exclusive.start (h : Exclusive s) (hl : s.lock = none) (t : T) (method : String)
    (params : List (String × JsonNode)) : Exclusive (s.start t method params) := by
  have hfree : ∀ u r, (s.threads u).request ≠ some r := by
    intro u r hu
    cases hl.symm.trans (h.holder u r hu)
  have hquiet : ∀ u r, s.threads u ≠ .receiving r := by
    intro u r hu
    exact hfree u r (by rw [hu]; rfl)
  have hthreads := fun u => s.threads_setPhase t u (.sending ⟨s.calls, s.nextID, method, params⟩)
  refine ⟨fun u r hu => ?_, fun _ => h.clean hquiet, fun u r hu => ?_⟩
  · by_cases hut : u = t
    · exact congrArg some hut.symm
    · rw [show (s.start t method params).threads u = _ from hthreads u, if_neg hut] at hu
      exact absurd hu (hfree u r)
  · rw [show (s.start t method params).threads u = _ from hthreads u] at hu
    split_ifs at hu
    exact absurd hu (hquiet u r)

/-- A request goes out on a clean connection, so it is the only one pending there. -/
theorem Exclusive.send (h : Exclusive s) {c : ℕ} (ht : s.threads t = .sending r)
    (hc : s.current = some c) (ho : (s.conns c).closed = false) :
    Exclusive ((s.setConn c ((s.conns c).send r)).setPhase t (.receiving r)) := by
  have hr : (s.threads t).request = some r := by rw [ht]; rfl
  have hclean : Clean s := h.clean_of_holder hr fun r' hr' => by cases ht.symm.trans hr'
  have hthreads := fun u =>
    (s.setConn c ((s.conns c).send r)).threads_setPhase t u (.receiving r)
  refine ⟨fun u r' hu => ?_, fun hn => absurd ?_ (hn t r), fun u r' hu d hd => ?_⟩
  · rw [hthreads] at hu
    split_ifs at hu with hut
    · rw [hut]
      exact h.holder t r hr
    · exact h.holder u r' hu
  · rw [hthreads, if_pos rfl]
  · obtain rfl : c = d := Option.some.inj (hc.symm.trans hd)
    rw [hthreads] at hu
    split_ifs at hu with hut
    · cases hu
      have hconn : ((s.setConn c ((s.conns c).send r)).setPhase t (.receiving r)).conns c =
          (s.conns c).send r := Function.update_self ..
      rw [hconn]
      exact Connection.pending_send (hclean c hc ho) r
    · exact absurd (h.eq_holder hr (by rw [show s.threads u = _ from hu]; rfl)) hut

theorem exclusive_step (h : Exclusive s) (hstep : Step s s') : Exclusive s' := by
  cases hstep with
  | @issue t method params ht =>
    refine ⟨fun u r hu => ?_, fun hn => h.clean fun u r hu => ?_, fun u r hu => ?_⟩
    · rw [State.threads_setPhase] at hu
      split_ifs at hu
      · cases hu
      · exact h.holder u r hu
    · apply hn u r
      rw [State.threads_setPhase, if_neg, hu]
      rintro rfl
      cases ht.symm.trans hu
    · rw [State.threads_setPhase] at hu
      split_ifs at hu
      exact h.own u r hu
  | lock _ hl => exact h.start hl ..
  | send ht hc ho => exact h.send ht hc ho
  | @sendFails t r ht =>
    have hr : (s.threads t).request = some r := by rw [ht]; rfl
    exact h.leave hr rfl (h.clean_of_holder hr fun r' hr' => by cases ht.symm.trans hr')
  | @sendBreaksOff t r c ht hc =>
    have hr : (s.threads t).request = some r := by rw [ht]; rfl
    have hclean := h.clean_of_holder hr fun r' hr' => by cases ht.symm.trans hr'
    refine h.leave hr rfl fun d hd ho => ?_
    obtain rfl : c = d := Option.some.inj (hc.symm.trans hd)
    simp only [State.setConn, Function.update_self] at ho ⊢
    exact hclean c hc ho
  | @receive t r c p rest ht hc hp =>
    refine h.leave (by rw [ht]; rfl) rfl fun d hd ho => ?_
    obtain rfl : c = d := Option.some.inj (hc.symm.trans hd)
    simp only [State.answer, State.setConn, Function.update_self]
    exact (Connection.pending_receive (h.own t r ht c hc) hp).2.1
  | @receiveFails t r c ht hc ho =>
    -- the connection is closed, so nothing will be sent on it
    refine h.leave (by rw [ht]; rfl) rfl fun d hd ho' => ?_
    obtain rfl : c = d := Option.some.inj (hc.symm.trans hd)
    cases ho.symm.trans ho'
  | @cancel t r ht =>
    refine ⟨fun u r' hu => ?_, fun _ c hc => (nomatch hc), fun u r' hu c hc => (nomatch hc)⟩
    rw [State.threads_setPhase] at hu
    split_ifs at hu with hut
    · rw [hut]
      exact h.holder t r (by rw [ht]; rfl)
    · exact h.holder u r' hu
  | @reconnect t r ht =>
    refine h.leave (by rw [ht]; rfl) rfl fun d hd _ => ?_
    cases hd
    simp only [State.connect, State.setConn, Function.update_self, Connection.pending_fresh]
  | @reconnectFails t r ht =>
    have hr : (s.threads t).request = some r := by rw [ht]; rfl
    exact h.leave hr rfl (h.clean_of_holder hr fun r' hr' => by cases ht.symm.trans hr')
  | serve _ hserves => exact h.serve hserves

end Exclusion

section Matching

variable {T : Type} {s s' s₁ : State T} {t u : T} {r : Request}

/-- Every answer pairs a call with the reply to its own request; each call and each reply
occurs once. The replies on the current connection have not been read by anyone. -/
structure Matched (s : State T) : Prop where
  answered : ∀ a ∈ s.answers, a.reply.request = a.request ∧ Answers a.request a.reply.response
  unread : ∀ c, s.current = some c → ∀ p ∈ (s.conns c).replies, Answers p.request p.response ∧
    p.date < s.clock ∧ ∀ a ∈ s.answers, a.reply.date ≠ p.date
  dated : ∀ a ∈ s.answers, a.reply.date < s.clock
  dates : (s.answers.map fun a => a.reply.date).Nodup
  calling : ∀ t r, (s.threads t).request = some r →
    r.call < s.calls ∧ ∀ a ∈ s.answers, a.request.call ≠ r.call
  called : ∀ a ∈ s.answers, a.request.call < s.calls
  calls : (s.answers.map fun a => a.request.call).Nodup

theorem matched_initial : Matched (State.initial : State T) where
  answered := nofun
  unread := by
    rintro c ⟨⟩ p hp
    cases hp
  dated := nofun
  dates := List.nodup_nil
  calling := nofun
  called := nofun
  calls := List.nodup_nil

/-- A step that answers nobody and opens no connection. -/
theorem Matched.of_same (h : Matched s) (ha : s'.answers = s.answers) (hk : s'.clock = s.clock)
    (hu : ∀ c, s'.current = some c → s.current = some c ∧
      (s'.conns c).replies = (s.conns c).replies)
    (hn : s'.calls = s.calls)
    (hc : ∀ t r, (s'.threads t).request = some r → ∃ u, (s.threads u).request = some r) :
    Matched s' := by
  refine ⟨ha ▸ h.answered, fun c hs p hp => ?_, ha ▸ hk ▸ h.dated, ha ▸ h.dates,
    fun t r hr => ?_, ha ▸ hn ▸ h.called, ha ▸ h.calls⟩
  · obtain ⟨hs, hreplies⟩ := hu c hs
    rw [hreplies] at hp
    rw [ha, hk]
    exact h.unread c hs p hp
  · obtain ⟨u, hu⟩ := hc t r hr
    rw [ha, hn]
    exact h.calling u r hu

/-- A reply that the helper produces now has a date of its own. -/
theorem Matched.serve (h : Matched s) {c : ℕ} {conn : Connection}
    (hserves : Connection.Serves s.clock (s.conns c) conn) :
    Matched { s.setConn c conn with clock := s.clock + 1 } := by
  refine ⟨h.answered, fun d hd q hq => ?_, fun a ha => (h.dated a ha).trans (Nat.lt_succ_self _),
    h.dates, h.calling, h.called, h.calls⟩
  have hold : q ∈ (s.conns d).replies ∨ (q.date = s.clock ∧ Answers q.request q.response) := by
    by_cases hdc : d = c
    · subst hdc
      simp only [State.setConn, Function.update_self] at hq
      exact hserves.replies hq
    · simp only [State.setConn, Function.update_of_ne hdc] at hq
      exact .inl hq
  rcases hold with hq | ⟨hdate, hanswers⟩
  · obtain ⟨ha, hlt, hne⟩ := h.unread d hd q hq
    exact ⟨ha, hlt.trans (Nat.lt_succ_self _), hne⟩
  · refine ⟨hanswers, hdate ▸ Nat.lt_succ_self _, fun a ha => ?_⟩
    rw [hdate]
    exact (h.dated a ha).ne

variable [DecidableEq T]

/-- The new call has a number of its own. -/
theorem Matched.start (h : Matched s) (t : T) (method : String)
    (params : List (String × JsonNode)) : Matched (s.start t method params) := by
  refine ⟨h.answered, h.unread, h.dated, h.dates, fun u r hu => ?_,
    fun a ha => (h.called a ha).trans (Nat.lt_succ_self _), h.calls⟩
  have hthreads := s.threads_setPhase t u (.sending ⟨s.calls, s.nextID, method, params⟩)
  rw [show (s.start t method params).threads u = _ from hthreads] at hu
  split_ifs at hu
  · cases hu
    exact ⟨Nat.lt_succ_self _, fun a ha => (h.called a ha).ne⟩
  · obtain ⟨hlt, hne⟩ := h.calling u r hu
    exact ⟨hlt.trans (Nat.lt_succ_self _), hne⟩

/-- The reply that is read is to the reader's own request, and nobody has read it before. -/
theorem Matched.answer (he : Exclusive s) (h : Matched s) {c : ℕ} {p : Reply} {rest : List Reply}
    (ht : s.threads t = .receiving r) (hc : s.current = some c)
    (hp : (s.conns c).replies = p :: rest) : Matched ((s.answer c r p rest).leave t) := by
  have hr : (s.threads t).request = some r := by rw [ht]; rfl
  obtain ⟨hreq, -, rfl⟩ := Connection.pending_receive (he.own t r ht c hc) hp
  obtain ⟨hanswers, hdate, hunread⟩ := h.unread c hc p (by rw [hp]; exact List.mem_cons_self)
  obtain ⟨hcall, huncalled⟩ := h.calling t r hr
  have hmem : ∀ a : Answer, a ∈ s.answers ++ [⟨r, p⟩] → a ∈ s.answers ∨ a = ⟨r, p⟩ :=
    fun a ha => (List.mem_append.mp ha).imp_right List.mem_singleton.mp
  have hnodup : ∀ f : Answer → ℕ, (s.answers.map f).Nodup → (∀ a ∈ s.answers, f a ≠ f ⟨r, p⟩) →
      ((s.answers ++ [Answer.mk r p]).map f).Nodup := by
    intro f hf hne
    rw [List.map_append]
    refine List.Nodup.append hf (List.nodup_singleton _) fun x hx hx' => ?_
    obtain ⟨a, ha, rfl⟩ := List.mem_map.mp hx
    exact hne a ha (List.mem_singleton.mp hx')
  refine ⟨fun a ha => ?_, fun d hd q hq => ?_, fun a ha => ?_, hnodup _ h.dates hunread,
    fun u r' hu => ?_, fun a ha => ?_, hnodup _ h.calls huncalled⟩
  · rcases hmem a ha with ha | rfl
    · exact h.answered a ha
    · exact ⟨hreq, hreq ▸ hanswers⟩
  · obtain rfl : c = d := Option.some.inj (hc.symm.trans hd)
    simp only [State.leave, State.setPhase, State.answer, State.setConn, Function.update_self] at hq
    cases hq
  · rcases hmem a ha with ha | rfl
    · exact h.dated a ha
    · exact hdate
  · obtain ⟨hne, hu⟩ := State.request_leave (s := s) rfl hu
    exact absurd (he.eq_holder hr hu) hne
  · rcases hmem a ha with ha | rfl
    · exact h.called a ha
    · exact hcall

theorem matched_step (he : Exclusive s) (h : Matched s) (hstep : Step s s') : Matched s' := by
  cases hstep with
  | @issue t method params ht =>
    refine h.of_same rfl rfl (fun c hc => ⟨hc, rfl⟩) rfl fun u r hu => ⟨u, ?_⟩
    rw [State.threads_setPhase] at hu
    split_ifs at hu
    · cases hu
    · exact hu
  | lock => exact h.start ..
  | @send t r c ht hc ho =>
    refine h.of_same rfl rfl (fun d hd => ⟨hd, ?_⟩) rfl fun u r' hu => ?_
    · obtain rfl : c = d := Option.some.inj (hc.symm.trans hd)
      simp only [State.setPhase, State.setConn, Function.update_self]
      rfl
    · rw [State.threads_setPhase] at hu
      split_ifs at hu
      · exact ⟨t, by rw [ht]; exact hu⟩
      · exact ⟨u, hu⟩
  | @sendBreaksOff t r c ht hc =>
    refine h.of_same rfl rfl (fun d hd => ⟨hd, ?_⟩) rfl
      fun u r' hu => ⟨u, (State.request_leave rfl hu).2⟩
    obtain rfl : c = d := Option.some.inj (hc.symm.trans hd)
    simp only [State.leave, State.setPhase, State.setConn, Function.update_self]
  | receive ht hc hp => exact h.answer he ht hc hp
  | @cancel t r ht =>
    refine h.of_same rfl rfl (fun c hc => by cases hc) rfl fun u r' hu => ?_
    rw [State.threads_setPhase] at hu
    split_ifs at hu
    · exact ⟨t, by rw [ht]; exact hu⟩
    · exact ⟨u, hu⟩
  | @reconnect t r ht =>
    refine ⟨h.answered, fun d hd q hq => ?_, h.dated, h.dates, fun u r' hu => ?_, h.called,
      h.calls⟩
    · cases hd
      simp only [State.leave, State.setPhase, State.connect, State.setConn, Function.update_self]
        at hq
      cases hq
    · exact h.calling u r' (State.request_leave (s := s) rfl hu).2
  | serve _ hserves => exact h.serve hserves
  | sendFails | receiveFails | reconnectFails =>
    exact h.of_same rfl rfl (fun c hc => ⟨hc, rfl⟩) rfl
      fun u r' hu => ⟨u, (State.request_leave rfl hu).2⟩

theorem reachable_matched (h : Reachable s) : Exclusive s ∧ Matched s := by
  induction h with
  | initial => exact ⟨exclusive_initial, matched_initial⟩
  | step _ hstep ih => exact ⟨exclusive_step ih.1 hstep, matched_step ih.1 ih.2 hstep⟩

/-- Responses are never crossed: in every run, each answer is the response that the helper
produced for that very request, with its id, no call is answered twice, and no reply is given
to two calls. -/
theorem responses_never_crossed (h : Reachable s) :
    (∀ a ∈ s.answers, a.reply.request = a.request ∧ Answers a.request a.reply.response ∧
      getIntMember (some a.reply.response) "id" = a.request.id ∧
      ∀ resp, a.returned.value = some resp → resp = a.reply.response) ∧
    (s.answers.map fun a => a.request.call).Nodup ∧
    (s.answers.map fun a => a.reply.date).Nodup := by
  obtain ⟨-, hm⟩ := reachable_matched h
  refine ⟨fun a ha => ?_, hm.calls, hm.dates⟩
  obtain ⟨hreq, handlers, hresp⟩ := hm.answered a ha
  refine ⟨hreq, ⟨handlers, hresp⟩, by rw [hresp, dispatch_id], fun resp hr => ?_⟩
  exact (readResponse_value.mp hr).1.symm

/-- A call that writes its request and reads the line of a reply returns what the answer says,
without reconnecting. -/
theorem call_returns_answer (codec : Codec) (rpc : ProtonRpc) (x : Exchange) (a : Answer)
    {text : String} (hc : rpc.connected = true) (hw : x.write = none) (hr : x.read = .line text)
    (hp : codec.parse text = .ok a.reply.response) :
    (call codec rpc a.request.method a.request.params x).2 = a.returned ∧
      (call codec rpc a.request.method a.request.params x).1.connected = true := by
  have hnot := readResponse_not_cancelled a.reply.response
  simp only [call, sendRequest, recvResponse, hc, hw, hr, hp, Option.elim_none, if_true,
    Bool.not_true, Bool.false_eq_true, if_false, hnot, and_false]
  exact ⟨rfl, trivial⟩

/-- One thread cancels while the helper is at work; the next call, on a new connection, gets
its own response. -/
theorem responses_never_crossed_afterCancel :
    ∃ s : State Bool, Reachable s ∧ s.answers.map (fun a => a.request.call) = [1] ∧
      ∀ a ∈ s.answers, a.reply.request = a.request := by
  have h₁ := Reachable.initial.step (.issue (t := true) "Stat" [] rfl)
  have h₂ := h₁.step (.lock (t := true) rfl rfl)
  have h₃ := h₂.step (.issue (t := false) "ListDir" [] rfl)
  have h₄ := h₃.step (.send (t := true) rfl rfl rfl)
  have h₅ := h₄.step (.serve (c := 0) (by decide) (.scan rfl rfl rfl))
  have h₆ := h₅.step (.cancel (t := true) rfl)
  have h₇ := h₆.step (.reconnect (t := true) rfl)
  have h₈ := h₇.step (.lock (t := false) rfl rfl)
  have h₉ := h₈.step (.send (t := false) rfl rfl rfl)
  have h₁₀ := h₉.step (.serve (c := 0) (by decide) (.take rfl rfl rfl))
  have h₁₁ := h₁₀.step (.serve (c := 0) (by decide) (.reply (fun _ => none) rfl rfl))
  have h₁₂ := h₁₁.step (.serve (c := 1) (by decide) (.scan rfl rfl rfl))
  have h₁₃ := h₁₂.step (.serve (c := 1) (by decide) (.take rfl rfl rfl))
  have h₁₄ := h₁₃.step (.serve (c := 1) (by decide) (.reply (fun _ => none) rfl rfl))
  have h₁₅ := h₁₄.step (.receive (t := false) rfl rfl rfl)
  exact ⟨_, h₁₅, rfl, fun a ha => ((responses_never_crossed h₁₅).1 a ha).1⟩

end Matching

end ProtonDrive.RpcConnections
