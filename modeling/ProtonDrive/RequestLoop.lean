import ProtonDrive.TerminatingRuns
import ProtonDrive.RpcConnections

/-!
# Every request of a connection

`handleConn` of `server.go` on the lines that one connection receives: the scanner goroutine
hands well-formed requests over an unbuffered channel to the loop, which answers one after the
other. The scanner stops for good at a line that is longer than its buffer, and closes the
channel; what comes from that line on is never answered.
-/

namespace ProtonDrive.RequestLoop
open Relation DriveApi JsonNodes RpcConnections TerminatingRuns

section Server

/-- A request; its parameters are handed on as they are. -/
structure Request where
  id : ℕ
  method : String
  params : Option JsonNode

/-- How a handler fails: with a coded error or with a plain one. -/
inductive Failure
  | rpc (e : RPCError)
  | plain (message : String)

def Failure.toRPCError : Failure → RPCError
  | .rpc e => e
  | .plain message => ⟨-32603, message⟩

/-- What the registered handlers return at some moment. -/
abbrev Handlers := String → Option (Option JsonNode → Except Failure (Option JsonNode))

def dispatch (handlers : Handlers) (req : Request) : JsonObject :=
  match handlers req.method with
  | none => response req.id (.error ⟨-32603, "unknown method: " ++ req.method⟩)
  | some h => response req.id ((h req.params).mapError Failure.toRPCError)

/-- Every response carries the id of its request. -/
theorem dispatch_id (handlers : Handlers) (req : Request) :
    getIntMember (some (dispatch handlers req)) "id" = req.id := by
  have hid : ∀ r, getIntMember (some (response req.id r)) "id" = req.id := by
    rintro (e | r) <;> simp [response, getIntMember]
  rw [dispatch]
  split <;> exact hid _

/-- The buffer of a scanner, which has to hold a line with its newline. -/
def maxScanTokenSize : ℕ := 64 * 1024

def tooLong (line : Bytes) : Bool := maxScanTokenSize < line.length + 1

inductive Scanner
  | scanning
  | offering (req : Request)
  | stopped

inductive Loop
  | waiting
  | handling (req : Request)
  | returned

/-- The lines that the scanner has not read yet, the two goroutines, and the responses that have
been written. -/
structure State where
  lines : List Bytes
  scanner : Scanner
  loop : Loop
  written : List JsonObject

def State.start (lines : List Bytes) : State := ⟨lines, .scanning, .waiting, []⟩

/-- A step of either goroutine, or of both where a request is handed over. `unmarshal` says which
lines are requests, `handlers` what the handlers return for each dispatch in turn, and `closes`
whether the client closes its side after the last line. -/
inductive Step (unmarshal : Bytes → Option Request) (handlers : ℕ → Handlers) (closes : Bool) :
    State → State → Prop
  | skip {s : State} {line : Bytes} {lines : List Bytes} (hs : s.scanner = .scanning)
      (hl : s.lines = line :: lines) (hlen : tooLong line = false) (hm : unmarshal line = none) :
      Step unmarshal handlers closes s { s with lines := lines }
  | scan {s : State} {line : Bytes} {lines : List Bytes} {req : Request}
      (hs : s.scanner = .scanning) (hl : s.lines = line :: lines) (hlen : tooLong line = false)
      (hm : unmarshal line = some req) :
      Step unmarshal handlers closes s { s with lines := lines, scanner := .offering req }
  | giveUp {s : State} {line : Bytes} {lines : List Bytes} (hs : s.scanner = .scanning)
      (hl : s.lines = line :: lines) (hlen : tooLong line = true) :
      Step unmarshal handlers closes s { s with scanner := .stopped }
  | endOfStream {s : State} (hs : s.scanner = .scanning) (hl : s.lines = [])
      (hc : closes = true) : Step unmarshal handlers closes s { s with scanner := .stopped }
  | take {s : State} {req : Request} (hs : s.scanner = .offering req) (hw : s.loop = .waiting) :
      Step unmarshal handlers closes s { s with scanner := .scanning, loop := .handling req }
  | respond {s : State} {req : Request} (hh : s.loop = .handling req) :
      Step unmarshal handlers closes s { s with
        loop := .waiting
        written := s.written ++ [dispatch (handlers s.written.length) req] }
  | finish {s : State} (hs : s.scanner = .stopped) (hw : s.loop = .waiting) :
      Step unmarshal handlers closes s { s with loop := .returned }

end Server

section Answers

variable (unmarshal : Bytes → Option Request) (handlers : ℕ → Handlers) (closes : Bool)

/-- The well-formed requests among some lines. -/
def requests (lines : List Bytes) : List Request := lines.filterMap unmarshal

/-- The lines before the first one that is too long. -/
def readable (lines : List Bytes) : List Bytes := lines.takeWhile fun line => !tooLong line

/-- One response for each request, in their order. -/
def answers (reqs : List Request) : List JsonObject :=
  reqs.mapIdx fun n req => dispatch (handlers n) req

/-- The requests that are still to be answered. -/
def State.pending (s : State) : List Request :=
  (match s.loop with
    | .handling req => [req]
    | _ => []) ++
  match s.scanner with
    | .scanning => requests unmarshal (readable s.lines)
    | .offering req => req :: requests unmarshal (readable s.lines)
    | .stopped => []

/-- Throughout, responses are written for the requests in turn, and every run comes to rest with
all of them written. -/
structure AnswersAll (lines : List Bytes) : Prop where
  inOrder : ∀ s, ReflTransGen (Step unmarshal handlers closes) (.start lines) s →
    s.written <+: answers handlers (requests unmarshal lines)
  complete : Eventually (Step unmarshal handlers closes)
    (fun s => s.written = answers handlers (requests unmarshal lines)) (.start lines)

end Answers

section Runs

variable {unmarshal : Bytes → Option Request} {handlers : ℕ → Handlers} {closes : Bool}
  {lines : List Bytes} {s s' : State}

theorem answers_concat (reqs : List Request) (req : Request) :
    answers handlers (reqs ++ [req]) =
      answers handlers reqs ++ [dispatch (handlers reqs.length) req] := List.mapIdx_concat

@[simp] theorem length_answers (reqs : List Request) :
    (answers handlers reqs).length = reqs.length := List.length_mapIdx

/-- Steps left at most: three for each line. -/
def State.weight (s : State) : ℕ :=
  3 * s.lines.length +
  (match s.scanner with
    | .scanning => 1
    | .offering _ => 3
    | .stopped => 0) +
  match s.loop with
    | .waiting => 1
    | .handling _ => 2
    | .returned => 0

theorem step_weight (h : Step unmarshal handlers closes s s') : s'.weight < s.weight := by
  cases h with
  | skip hs hl | scan hs hl =>
    simp only [State.weight, hs, hl, List.length_cons]
    omega
  | giveUp hs | endOfStream hs =>
    simp only [State.weight, hs]
    omega
  | take hs hw | finish hs hw =>
    simp only [State.weight, hs, hw]
    omega
  | respond hh =>
    simp only [State.weight, hh]
    omega

/-- What has been written answers the first requests that can be read, and the others are
pending. -/
structure Inv (unmarshal : Bytes → Option Request) (handlers : ℕ → Handlers)
    (lines : List Bytes) (s : State) : Prop where
  answered : ∃ done, s.written = answers handlers done ∧
    done ++ s.pending unmarshal = requests unmarshal (readable lines)
  returned : s.loop = .returned → s.scanner = .stopped

theorem inv_start (lines : List Bytes) : Inv unmarshal handlers lines (.start lines) :=
  ⟨⟨[], rfl, rfl⟩, nofun⟩

theorem readable_cons_of_short {line : Bytes} {rest : List Bytes} (h : tooLong line = false) :
    readable (line :: rest) = line :: readable rest := by simp [readable, h]

theorem readable_cons_of_long {line : Bytes} {rest : List Bytes} (h : tooLong line = true) :
    readable (line :: rest) = [] := by simp [readable, h]

/-- A step hands the pending requests on, or answers the first of them. -/
theorem step_pending (h : Step unmarshal handlers closes s s') :
    (s'.written = s.written ∧ s'.pending unmarshal = s.pending unmarshal) ∨
    ∃ req, s.pending unmarshal = req :: s'.pending unmarshal ∧
      s'.written = s.written ++ [dispatch (handlers s.written.length) req] := by
  cases h with
  | skip hs hl hlen hm =>
    refine .inl ⟨rfl, ?_⟩
    simp [State.pending, hs, hl, readable_cons_of_short hlen, requests, hm]
  | scan hs hl hlen hm =>
    refine .inl ⟨rfl, ?_⟩
    simp [State.pending, hs, hl, readable_cons_of_short hlen, requests, hm]
  | giveUp hs hl hlen =>
    refine .inl ⟨rfl, ?_⟩
    simp [State.pending, hs, hl, readable_cons_of_long hlen, requests]
  | endOfStream hs hl =>
    refine .inl ⟨rfl, ?_⟩
    simp [State.pending, hs, hl, readable, requests]
  | take hs hw => exact .inl ⟨rfl, by simp [State.pending, hs, hw]⟩
  | respond hh =>
    rename_i req
    exact .inr ⟨req, by simp [State.pending, hh], rfl⟩
  | finish hs hw => exact .inl ⟨rfl, by simp [State.pending, hs, hw]⟩

theorem inv_step (hi : Inv unmarshal handlers lines s) (h : Step unmarshal handlers closes s s') :
    Inv unmarshal handlers lines s' := by
  constructor
  · obtain ⟨done, hw, hp⟩ := hi.answered
    rcases step_pending h with ⟨hw', hp'⟩ | ⟨req, hp', hw'⟩
    · exact ⟨done, hw'.trans hw, hp' ▸ hp⟩
    · refine ⟨done ++ [req], ?_, ?_⟩
      · rw [hw', hw, answers_concat, length_answers]
      · rw [List.append_assoc, List.singleton_append, ← hp', hp]
  · intro hr
    cases h with
    | finish hs => exact hs
    | giveUp | endOfStream => rfl
    | take | respond => cases hr
    | skip hs | scan hs => cases hs.symm.trans (hi.returned hr)

theorem inv_reached (h : ReflTransGen (Step unmarshal handlers closes) (.start lines) s) :
    Inv unmarshal handlers lines s := by
  induction h with
  | refl => exact inv_start lines
  | tail _ hs ih => exact inv_step ih hs

/-- At rest nothing is pending. -/
theorem pending_atRest (hi : Inv unmarshal handlers lines s)
    (hr : AtRest (Step unmarshal handlers closes) s) : s.pending unmarshal = [] := by
  cases hl : s.loop with
  | handling req => exact absurd (.respond hl) (hr _)
  | returned => simp [State.pending, hl, hi.returned hl]
  | waiting =>
    cases hs : s.scanner with
    | offering req => exact absurd (.take hs hl) (hr _)
    | stopped => simp [State.pending, hl, hs]
    | scanning =>
      cases hlines : s.lines with
      | nil => simp [State.pending, hl, hs, hlines, readable, requests]
      | cons line rest =>
        cases hlen : tooLong line with
        | true => exact absurd (.giveUp hs hlines hlen) (hr _)
        | false =>
          cases hm : unmarshal line with
          | none => exact absurd (.skip hs hlines hlen hm) (hr _)
          | some req => exact absurd (.scan hs hlines hlen hm) (hr _)

/-- Every run comes to rest with the requests answered that could be read. -/
theorem readable_answered (lines : List Bytes) :
    Eventually (Step unmarshal handlers closes)
      (fun s => s.written = answers handlers (requests unmarshal (readable lines)))
      (.start lines) := by
  refine .of_weight State.weight (fun _ _ => step_weight) fun s hs hr => ?_
  have hi := inv_reached hs
  obtain ⟨done, hw, hp⟩ := hi.answered
  rw [pending_atRest hi hr, List.append_nil] at hp
  rw [hw, hp]

/-- All requests are answered, each once and in order, exactly when none comes in a line that is
too long, or after one. -/
theorem answersAll_iff (unmarshal : Bytes → Option Request) (handlers : ℕ → Handlers)
    (closes : Bool) (lines : List Bytes) :
    AnswersAll unmarshal handlers closes lines ↔
      ∀ line ∈ lines.dropWhile fun line => !tooLong line, unmarshal line = none := by
  have hsplit : requests unmarshal lines = requests unmarshal (readable lines) ++
      requests unmarshal (lines.dropWhile fun line => !tooLong line) := by
    rw [requests, requests, requests, readable, ← List.filterMap_append,
      List.takeWhile_append_dropWhile]
  have hnone : (∀ line ∈ lines.dropWhile fun line => !tooLong line, unmarshal line = none) ↔
      requests unmarshal (lines.dropWhile fun line => !tooLong line) = [] :=
    List.filterMap_eq_nil_iff.symm
  rw [hnone]
  constructor
  · intro h
    obtain ⟨s, hs, hr, hw⟩ := h.complete.exists_rest
    have hread := (readable_answered lines).of_rest hs hr
    have hlen := congrArg List.length (hread.symm.trans hw)
    rw [length_answers, length_answers, hsplit, List.length_append] at hlen
    exact List.eq_nil_of_length_eq_zero (by omega)
  · intro h
    rw [h, List.append_nil] at hsplit
    refine ⟨fun s hs => ?_, hsplit ▸ readable_answered lines⟩
    obtain ⟨done, hw, hp⟩ := (inv_reached hs).answered
    rw [hw, hsplit, ← hp, answers, answers, List.mapIdx_append]
    exact List.prefix_append _ _

/-- A line that is a request for the pending events. -/
def getEventsLine : Bytes := "\x7b\"id\":1,\"method\":\"GetEvents\"\x7d".toUTF8.data.toList

/-- A line of 64 KiB of blanks, and after it a request, before anyone has logged in. -/
theorem answersAll_fails :
    ¬ AnswersAll
      (fun line => if line = getEventsLine then some ⟨1, "GetEvents", none⟩ else none)
      (fun _ method => if method = "GetEvents"
        then some fun _ => .error (.rpc ⟨-32003, "not authenticated"⟩) else none)
      false [List.replicate maxScanTokenSize 32, getEventsLine] := by
  intro h
  obtain ⟨s, hs, hr, hw⟩ := h.complete.exists_rest
  have hread := (readable_answered _).of_rest hs hr
  have hlong : tooLong (List.replicate maxScanTokenSize 32) = true := by simp [tooLong]
  rw [readable_cons_of_long hlong, hw] at hread
  have hlen := congrArg List.length hread
  rw [length_answers, length_answers] at hlen
  rw [requests, List.length_filterMap_eq_countP] at hlen
  simp [requests] at hlen

end Runs

end ProtonDrive.RequestLoop
