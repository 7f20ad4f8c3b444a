import ProtonDrive.PartialRuns
import ProtonDrive.RequestLoop

/-!
# The end of a connection

The two goroutines of `handleConn` while the client sends lines, closes the connection or a
response cannot be written. The reader goroutine hands requests over an unbuffered channel and
looks at nothing else meanwhile; when it ends it closes the channel and cancels the context of
the handlers. The main loop closes the connection when it returns.
-/

namespace ProtonDrive.ConnectionTeardown
open Relation DriveApi RequestLoop PartialRuns

section Model

inductive Reader
  | scanning
  | offering (req : Request)
  | closing
  | done

inductive MainLoop
  | waiting
  | handling (req : Request)
  | replying (req : Request)
  | returned

/-- Lines that are on their way to the helper, lines that the scanner has in its buffer, whether
the client has closed its side, and the two goroutines. The reader is `closing` while the channel
is closed and the context is not cancelled yet. -/
structure State where
  sent : List Bytes
  buffered : List Bytes
  clientClosed : Bool
  reader : Reader
  loop : MainLoop

/-- The main loop closes the connection when it returns. -/
def State.connClosed (s : State) : Bool :=
  match s.loop with
  | .returned => true
  | _ => false

def State.start : State := ⟨[], [], false, .scanning, .waiting⟩

inductive Action
  | send (line : Bytes)
  | close
  | read (n : ℕ)
  | readFails
  | scan
  | cancel
  | take
  | finishHandler
  | reply
  | replyFails
  | finish

/-- What the reader goroutine does by itself. -/
def Action.IsReader : Action → Prop
  | .read _ | .readFails | .scan | .cancel => True
  | _ => False

/-- One token of the scanner: malformed requests are skipped, a line that is too long ends the
loop. -/
def scanToken (unmarshal : Bytes → Option Request) (s : State) (line : Bytes)
    (rest : List Bytes) : State :=
  if tooLong line then { s with reader := .closing }
  else match unmarshal line with
    | none => { s with buffered := rest }
    | some req => { s with buffered := rest, reader := .offering req }

/-- One action, unless it is not possible in the state. -/
def step (unmarshal : Bytes → Option Request) (s : State) (a : Action) : Option State :=
  match a, s.reader, s.loop with
  | .send line, _, _ => if s.clientClosed then none else some { s with sent := s.sent ++ [line] }
  | .close, _, _ => if s.clientClosed then none else some { s with clientClosed := true }
  | .read n, .scanning, _ =>
    -- the scanner reads on once its buffer holds no whole line
    if s.buffered = [] ∧ s.connClosed = false ∧ 0 < n ∧ n ≤ s.sent.length then
      some { s with buffered := s.sent.take n, sent := s.sent.drop n }
    else none
  | .readFails, .scanning, _ =>
    if s.buffered = [] ∧ (s.connClosed = true ∨ s.sent = [] ∧ s.clientClosed = true) then
      some { s with reader := .closing }
    else none
  | .scan, .scanning, _ => match s.buffered with
    | [] => none
    | line :: rest => some (scanToken unmarshal s line rest)
  | .cancel, .closing, _ => some { s with reader := .done }
  | .take, .offering req, .waiting => some { s with reader := .scanning, loop := .handling req }
  | .finishHandler, _, .handling req => some { s with loop := .replying req }
  | .reply, _, .replying _ => some { s with loop := .waiting }
  | .replyFails, _, .replying _ => some { s with loop := .returned }
  | .finish, .closing, .waiting | .finish, .done, .waiting => some { s with loop := .returned }
  | _, _, _ => none

end Model

section Properties

variable (unmarshal : Bytes → Option Request)

def Moves (s s' : State) : Prop := ∃ a, step unmarshal s a = some s'

def ReaderMoves (s s' : State) : Prop := ∃ a, a.IsReader ∧ step unmarshal s a = some s'

/-- Whatever happens, the reader goes on handing over the same request. -/
def Stranded (s : State) : Prop :=
  ∃ req, s.reader = .offering req ∧
    ∀ s', ReflTransGen (Moves unmarshal) s s' → s'.reader = .offering req

/-- The reader can get to where it has cancelled the context, the main loop standing still. -/
def ReaderCancels (s : State) : Prop :=
  ∃ s', ReflTransGen (ReaderMoves unmarshal) s s' ∧ s'.reader = .done

structure TearsDown (s : State) : Prop where
  notStranded : s.loop = .returned → ¬ Stranded unmarshal s
  cancels : ∀ req, s.clientClosed = true → s.loop = .handling req → ReaderCancels unmarshal s

/-- The requests the reader still has to hand over: the one it is offering, and those in the
lines that it will read. -/
def State.waiting (s : State) : List Request :=
  match s.reader with
  | .scanning => requests unmarshal (readable (s.buffered ++ s.sent))
  | .offering req => req :: requests unmarshal (readable (s.buffered ++ s.sent))
  | .closing | .done => []

/-- No request waits behind another one when the client closes during its handling, or when its
handling starts after that; and none is being handed over when a failing write ends the main loop,
or scanned after that. -/
def Careful (s : State) : Action → Prop
  | .close => s.clientClosed = false → ∀ req, s.loop = .handling req → s.waiting unmarshal = []
  | .take => s.clientClosed = true → s.loop = .waiting → ∀ req, s.reader = .offering req →
      s.waiting unmarshal = [req]
  | .replyFails => ∀ req, s.loop = .replying req → ∀ req', s.reader ≠ .offering req'
  | .scan => s.loop = .returned → s.reader = .scanning → ∀ line ∈ s.buffered.head?,
      tooLong line = false → unmarshal line = none
  | _ => True

end Properties

section Reader

variable {unmarshal : Bytes → Option Request} {s s' : State} {req : Request}

/-- Once the main loop has returned, nobody takes what the reader offers. -/
theorem offering_kept {a : Action} (h : step unmarshal s a = some s') (hl : s.loop = .returned)
    (hr : s.reader = .offering req) : s'.loop = .returned ∧ s'.reader = .offering req := by
  cases a <;> simp only [step, hr, hl, reduceCtorEq] at h
  case send | close =>
    split_ifs at h
    cases h
    exact ⟨rfl, rfl⟩

theorem stranded_iff (hl : s.loop = .returned) :
    Stranded unmarshal s ↔ ∃ req, s.reader = .offering req := by
  constructor
  · rintro ⟨req, hr, -⟩
    exact ⟨req, hr⟩
  · rintro ⟨req, hr⟩
    refine ⟨req, hr, fun s' hs => And.right (a := s'.loop = .returned) ?_⟩
    induction hs with
    | refl => exact ⟨hl, hr⟩
    | tail _ hstep ih =>
      obtain ⟨a, ha⟩ := hstep
      exact offering_kept ha ih.1 ih.2

/-- The moves of the reader goroutine. -/
theorem readerMoves_cases (h : ReaderMoves unmarshal s s') :
    (∃ n, s.reader = .scanning ∧ s.buffered = [] ∧ s.connClosed = false ∧
      s' = { s with buffered := s.sent.take n, sent := s.sent.drop n }) ∨
    (s.reader = .scanning ∧ s.buffered = [] ∧ (s.connClosed = true ∨ s.sent = []) ∧
      s' = { s with reader := .closing }) ∨
    (∃ line rest, s.reader = .scanning ∧ s.buffered = line :: rest ∧
      s' = scanToken unmarshal s line rest) ∨
    (s.reader = .closing ∧ s' = { s with reader := .done }) := by
  obtain ⟨a, ha, h⟩ := h
  cases hr : s.reader with
  | offering | done => cases a <;> simp only [step, hr, Action.IsReader, reduceCtorEq] at h ha
  | closing =>
    cases a <;> simp only [step, hr, Action.IsReader, reduceCtorEq] at h ha
    case cancel => exact .inr (.inr (.inr ⟨rfl, (Option.some.inj h).symm⟩))
  | scanning =>
    cases a <;> simp only [step, hr, Action.IsReader, reduceCtorEq] at h ha
    case read n =>
      split_ifs at h with hc
      exact .inl ⟨n, rfl, hc.1, hc.2.1, (Option.some.inj h).symm⟩
    case readFails =>
      split_ifs at h with hc
      exact .inr (.inl ⟨rfl, hc.1, hc.2.imp_right And.left, (Option.some.inj h).symm⟩)
    case scan =>
      cases hb : s.buffered with
      | nil => simp [hb] at h
      | cons line rest =>
        rw [hb] at h
        exact .inr (.inr (.inl ⟨line, rest, rfl, rfl, (Option.some.inj h).symm⟩))

theorem connClosed_congr (h : s'.loop = s.loop) : s'.connClosed = s.connClosed := by
  rw [State.connClosed, State.connClosed, h]

theorem waiting_scanToken {line : Bytes} {rest : List Bytes} (hr : s.reader = .scanning)
    (hb : s.buffered = line :: rest) :
    (scanToken unmarshal s line rest).waiting unmarshal = s.waiting unmarshal := by
  simp only [State.waiting, hr, hb, List.cons_append, scanToken]
  split_ifs with hlong
  · rw [readable_cons_of_long hlong]
    rfl
  · have hshort : tooLong line = false := by simpa using hlong
    rw [readable_cons_of_short hshort]
    cases hm : unmarshal line <;> simp [requests, hm]

/-- The reader goroutine touches neither the main loop nor the client. -/
theorem readerMoves_frame (h : ReaderMoves unmarshal s s') :
    s'.loop = s.loop ∧ s'.clientClosed = s.clientClosed := by
  rcases readerMoves_cases h with ⟨n, -, -, -, rfl⟩ | ⟨-, -, -, rfl⟩ | ⟨line, rest, -, -, rfl⟩ |
    ⟨-, rfl⟩
  · exact ⟨rfl, rfl⟩
  · exact ⟨rfl, rfl⟩
  · rw [scanToken]
    split_ifs
    · exact ⟨rfl, rfl⟩
    · cases unmarshal line <;> exact ⟨rfl, rfl⟩
  · exact ⟨rfl, rfl⟩

/-- While the connection is open, the reader's own moves bring it closer to the requests that
wait, but past none of them. -/
theorem readerMoves_waiting (h : ReaderMoves unmarshal s s') (hl : s.connClosed = false) :
    s'.waiting unmarshal = s.waiting unmarshal := by
  rcases readerMoves_cases h with ⟨n, hr, hb, -, rfl⟩ | ⟨hr, hb, hend, rfl⟩ |
    ⟨line, rest, hr, hb, rfl⟩ | ⟨hr, rfl⟩
  · simp [State.waiting, hr, hb]
  · obtain hs := hend.resolve_left (by simp [hl])
    simp [State.waiting, hr, hb, hs, readable, requests]
  · exact waiting_scanToken hr hb
  · simp [State.waiting, hr]

theorem readerCancels_of_closing (hr : s.reader = .closing) : ReaderCancels unmarshal s :=
  ⟨{ s with reader := .done }, .single ⟨.cancel, trivial, by simp [step, hr]⟩, rfl⟩

theorem ReaderCancels.head (h : ReaderMoves unmarshal s s') (h' : ReaderCancels unmarshal s') :
    ReaderCancels unmarshal s := by
  obtain ⟨s'', hs, hdone⟩ := h'
  exact ⟨s'', .head h hs, hdone⟩

/-- With nothing to hand over, the reader reads up to the end of the connection. -/
theorem readerCancels_of_waiting_nil (hc : s.clientClosed = true) (hl : s.connClosed = false)
    (hw : s.waiting unmarshal = []) : ReaderCancels unmarshal s := by
  induction hn : 2 * s.sent.length + s.buffered.length using Nat.strong_induction_on
    generalizing s with
  | h n ih =>
    subst hn
    cases hr : s.reader with
    | offering req => simp [State.waiting, hr] at hw
    | closing => exact readerCancels_of_closing hr
    | done => exact ⟨s, .refl, hr⟩
    | scanning =>
      cases hb : s.buffered with
      | nil =>
        cases hs : s.sent with
        | nil =>
          have hmove : ReaderMoves unmarshal s { s with reader := .closing } :=
            ⟨.readFails, trivial, by simp [step, hr, hb, hs, hc]⟩
          exact .head hmove (readerCancels_of_closing rfl)
        | cons line rest =>
          have hmove : ReaderMoves unmarshal s { s with buffered := s.sent, sent := [] } :=
            ⟨.read s.sent.length, trivial, by simp [step, hr, hb, hl, hs]⟩
          have hw' := (readerMoves_waiting hmove hl).trans hw
          exact .head hmove (ih _ (by simp [hs, hb]) hc hl hw' rfl)
      | cons line rest =>
        have hmove : ReaderMoves unmarshal s (scanToken unmarshal s line rest) :=
          ⟨.scan, trivial, by simp [step, hr, hb]⟩
        have hw' := (readerMoves_waiting hmove hl).trans hw
        refine .head hmove ?_
        rw [scanToken] at hw' ⊢
        split_ifs at hw' ⊢ with hlong
        · exact readerCancels_of_closing rfl
        · cases hm : unmarshal line with
          | some req => simp [State.waiting, hm] at hw'
          | none =>
            rw [hm] at hw'
            exact ih _ (by simp [hb]) hc hl hw' rfl

theorem readerRun_waiting (h : ReflTransGen (ReaderMoves unmarshal) s s')
    (hl : s.connClosed = false) :
    s'.waiting unmarshal = s.waiting unmarshal ∧ s'.connClosed = false := by
  induction h with
  | refl => exact ⟨rfl, hl⟩
  | tail _ hmove ih =>
    exact ⟨(readerMoves_waiting hmove ih.2).trans ih.1,
      (connClosed_congr (readerMoves_frame hmove).1).trans ih.2⟩

theorem readerCancels_iff (hc : s.clientClosed = true) (hl : s.connClosed = false) :
    ReaderCancels unmarshal s ↔ s.waiting unmarshal = [] := by
  refine ⟨?_, readerCancels_of_waiting_nil hc hl⟩
  rintro ⟨s', hs, hdone⟩
  rw [← (readerRun_waiting hs hl).1]
  simp [State.waiting, hdone]

end Reader

section Teardown

variable {unmarshal : Bytes → Option Request} {s s' : State} {req : Request}

/-- The same in terms of one state. -/
structure Quiet (unmarshal : Bytes → Option Request) (s : State) : Prop where
  returned : s.loop = .returned → ∀ req, s.reader ≠ .offering req
  handling : ∀ req, s.clientClosed = true → s.loop = .handling req → s.waiting unmarshal = []

theorem tearsDown_iff : TearsDown unmarshal s ↔ Quiet unmarshal s := by
  have hreturned : (s.loop = .returned → ¬ Stranded unmarshal s) ↔
      (s.loop = .returned → ∀ req, s.reader ≠ .offering req) :=
    forall_congr' fun hl => by rw [stranded_iff hl, not_exists]
  have hhandling : (∀ req, s.clientClosed = true → s.loop = .handling req →
        ReaderCancels unmarshal s) ↔
      ∀ req, s.clientClosed = true → s.loop = .handling req → s.waiting unmarshal = [] := by
    refine forall_congr' fun req => forall₂_congr fun hc hl => ?_
    exact readerCancels_iff hc (by rw [State.connClosed, hl])
  exact ⟨fun h => ⟨hreturned.mp h.notStranded, hhandling.mp h.cancels⟩,
    fun h => ⟨hreturned.mpr h.returned, hhandling.mpr h.handling⟩⟩

theorem Quiet.readerMoves (h : Quiet unmarshal s) (hmove : ReaderMoves unmarshal s s')
    (hreader : s.loop = .returned → ∀ req, s'.reader ≠ .offering req) : Quiet unmarshal s' := by
  obtain ⟨hloop, hclosed⟩ := readerMoves_frame hmove
  refine ⟨fun hl => hreader (hloop.symm.trans hl), fun req hc hl => ?_⟩
  have hl' : s.loop = .handling req := hloop.symm.trans hl
  rw [readerMoves_waiting hmove (by rw [State.connClosed, hl'])]
  exact h.handling req (hclosed.symm.trans hc) hl'

/-- Of the reader's moves only a scan can end with a request to hand over. -/
theorem not_offering_of_step {a : Action} (ha : a.IsReader) (hscan : a ≠ .scan)
    (h : step unmarshal s a = some s') (req : Request) : s'.reader ≠ .offering req := by
  cases a <;> try exact absurd ha id
  case scan => exact absurd rfl hscan
  case read | readFails =>
    cases hr : s.reader <;> simp only [step, hr, reduceCtorEq] at h
    split_ifs at h
    cases h
    simp
  case cancel =>
    cases hr : s.reader <;> simp only [step, hr, reduceCtorEq] at h
    cases h
    simp

theorem Quiet.readerAction {a : Action} (h : Quiet unmarshal s) (ha : a.IsReader)
    (hscan : a ≠ .scan) (hs : step unmarshal s a = some s') : Quiet unmarshal s' :=
  h.readerMoves ⟨a, ha, hs⟩ fun _ => not_offering_of_step ha hscan hs

theorem scanToken_not_offering_iff (hr : s.reader = .scanning) (line : Bytes) (rest : List Bytes) :
    (∀ req, (scanToken unmarshal s line rest).reader ≠ .offering req) ↔
      (tooLong line = false → unmarshal line = none) := by
  rw [scanToken]
  split_ifs with hlong
  · simp [hlong]
  · cases hm : unmarshal line <;> simp [hlong, hr]

/-- The main loop neither has returned nor waits for a handler. -/
theorem quiet_of_loop (hreturned : s.loop ≠ .returned) (hhandling : ∀ req, s.loop ≠ .handling req) :
    Quiet unmarshal s :=
  ⟨fun hl => absurd hl hreturned, fun req _ hl => absurd hl (hhandling req)⟩

/-- In a quiet state, the careful actions are those that lead to quiet states. -/
theorem careful_iff (h : Quiet unmarshal s) (a : Action) :
    Careful unmarshal s a ↔ ∀ s', step unmarshal s a = some s' → Quiet unmarshal s' := by
  cases a with
  | send line =>
    refine iff_of_true trivial fun s' hs => ?_
    simp only [step] at hs
    split_ifs at hs with hc
    cases hs
    exact ⟨h.returned, fun req hc' => absurd hc' hc⟩
  | close =>
    simp only [Careful, step]
    split_ifs with hc
    · simp [hc]
    · constructor
      · rintro hw _ ⟨rfl⟩
        exact ⟨h.returned, fun req _ hl => hw (by simpa using hc) req hl⟩
      · intro hq _ req hl
        exact (hq _ rfl).handling req rfl hl
  | read n =>
    exact iff_of_true trivial fun _ hs => h.readerAction (a := .read n) trivial (by simp) hs
  | readFails =>
    exact iff_of_true trivial fun _ hs => h.readerAction (a := .readFails) trivial (by simp) hs
  | cancel =>
    exact iff_of_true trivial fun _ hs => h.readerAction (a := .cancel) trivial (by simp) hs
  | scan =>
    cases hr : s.reader with
    | offering | closing | done => simp [Careful, step, hr]
    | scanning =>
      cases hb : s.buffered with
      | nil => simp [Careful, step, hr, hb]
      | cons line rest =>
        have hstep : step unmarshal s .scan = some (scanToken unmarshal s line rest) := by
          simp [step, hr, hb]
        have hmove : ReaderMoves unmarshal s (scanToken unmarshal s line rest) :=
          ⟨.scan, trivial, hstep⟩
        have htoken : _ ↔ (tooLong line = false → unmarshal line = none) :=
          scanToken_not_offering_iff hr line rest
        simp only [Careful, hstep, hr, hb, List.head?_cons, Option.some.injEq, forall_eq',
          Option.mem_def, forall_const]
        constructor
        · intro hcare
          exact h.readerMoves hmove fun hl => htoken.mpr (hcare hl)
        · intro hq hl
          exact htoken.mp (hq.returned ((readerMoves_frame hmove).1.trans hl))
  | take =>
    cases hr : s.reader with
    | scanning | closing | done => simp [Careful, step, hr]
    | offering req =>
      cases hl : s.loop with
      | handling | replying | returned => simp [Careful, step, hr, hl]
      | waiting =>
        have hbehind : s.waiting unmarshal = [req] ↔ ({ s with
            reader := .scanning, loop := .handling req } : State).waiting unmarshal = [] := by
          simp [State.waiting, hr]
        simp only [Careful, step, hr, hl, Option.some.injEq, forall_eq']
        constructor
        · intro hcare
          exact ⟨nofun, fun req' hc _ => hbehind.mp (hcare hc trivial req rfl)⟩
        · rintro hq hc - _ ⟨rfl⟩
          exact hbehind.mpr (hq.handling req hc rfl)
  | finishHandler =>
    refine iff_of_true trivial fun s' hs => ?_
    cases hl : s.loop <;> simp only [step, hl, reduceCtorEq] at hs
    cases hs
    exact quiet_of_loop (by simp) (by simp)
  | reply =>
    refine iff_of_true trivial fun s' hs => ?_
    cases hl : s.loop <;> simp only [step, hl, reduceCtorEq] at hs
    cases hs
    exact quiet_of_loop (by simp) (by simp)
  | replyFails =>
    cases hl : s.loop with
    | replying req =>
      simp only [Careful, step, hl, Option.some.injEq, forall_eq']
      constructor
      · intro hcare
        exact ⟨fun _ => hcare req rfl, nofun⟩
      · intro hq _ _
        exact hq.returned rfl
    | waiting | handling | returned => simp [Careful, step, hl]
  | finish =>
    refine iff_of_true trivial fun s' hs => ?_
    cases hr : s.reader <;> cases hl : s.loop <;> simp only [step, hr, hl, reduceCtorEq] at hs
    all_goals
      cases hs
      exact ⟨by simp, nofun⟩

/-- Throughout a run the end of the connection frees the reader and reaches the handler exactly
when all actions of the run are careful. -/
theorem always_tearsDown_iff (unmarshal : Bytes → Option Request) (actions : List Action) :
    Always (step unmarshal) (TearsDown unmarshal) .start actions ↔
      Along (step unmarshal) (Careful unmarshal) .start actions := by
  have hquiet : TearsDown unmarshal = Quiet unmarshal := funext fun s => propext tearsDown_iff
  have hstart : Quiet unmarshal .start := ⟨nofun, nofun⟩
  rw [hquiet]
  exact always_iff_along (I := fun _ => True) (fun _ _ _ _ _ => trivial)
    (fun s a _ h => careful_iff h a) trivial hstart actions

/-- The client sends its next line when every request has been answered. -/
def LockStep (unmarshal : Bytes → Option Request) (s : State) : Action → Prop
  | .send _ => s.loop = .waiting ∧ s.waiting unmarshal = []
  | _ => True

/-- No request waits, unless the main loop is free to take it. -/
def NoneBehind (unmarshal : Bytes → Option Request) (s : State) : Prop :=
  s.waiting unmarshal = [] ∨ (s.loop = .waiting ∧ ∃ req, s.waiting unmarshal = [req])

theorem NoneBehind.waiting_nil (h : NoneBehind unmarshal s) (hl : s.loop ≠ .waiting) :
    s.waiting unmarshal = [] := h.resolve_right fun h' => hl h'.1

theorem NoneBehind.careful {a : Action} (h : NoneBehind unmarshal s) : Careful unmarshal s a := by
  cases a with
  | close => exact fun _ req hl => h.waiting_nil (by simp [hl])
  | take =>
    intro _ hl req hr
    have hw : s.waiting unmarshal =
        req :: requests unmarshal (readable (s.buffered ++ s.sent)) := by
      simp [State.waiting, hr]
    rcases h with h | ⟨-, req', h⟩
    · cases hw.symm.trans h
    · obtain ⟨rfl, -⟩ := List.cons.inj (hw.symm.trans h)
      exact h
  | replyFails =>
    intro req hl req' hr
    have hw := h.waiting_nil (by simp [hl])
    simp [State.waiting, hr] at hw
  | scan =>
    intro hl hr line hline hshort
    have hw := h.waiting_nil (by simp [hl])
    obtain ⟨rest, hb⟩ := List.head?_eq_some_iff.mp hline
    cases hm : unmarshal line with
    | none => rfl
    | some req =>
      simp [State.waiting, hr, hb, readable_cons_of_short hshort, requests, hm] at hw
  | _ => trivial

theorem readable_concat (lines : List Bytes) (line : Bytes) :
    readable (lines ++ [line]) = readable lines ∨
      readable (lines ++ [line]) = readable lines ++ [line] := by
  induction lines with
  | nil =>
    cases hlong : tooLong line with
    | true => exact .inl (readable_cons_of_long hlong)
    | false => exact .inr (readable_cons_of_short hlong)
  | cons first lines ih =>
    cases hlong : tooLong first with
    | true => exact .inl ((readable_cons_of_long hlong).trans (readable_cons_of_long hlong).symm)
    | false =>
      rw [List.cons_append, readable_cons_of_short hlong, readable_cons_of_short hlong]
      exact ih.imp (congrArg (first :: ·)) (congrArg (first :: ·))

/-- One more line is at most one more request. -/
theorem waiting_send (hl : s.loop = .waiting) (hw : s.waiting unmarshal = []) (line : Bytes) :
    NoneBehind unmarshal { s with sent := s.sent ++ [line] } := by
  cases hr : s.reader with
  | offering req => simp [State.waiting, hr] at hw
  | closing => exact .inl (by simp [State.waiting])
  | done => exact .inl (by simp [State.waiting])
  | scanning =>
    simp only [State.waiting, hr, requests] at hw
    simp only [NoneBehind, State.waiting, hl, true_and, requests]
    rw [← List.append_assoc]
    rcases readable_concat (s.buffered ++ s.sent) line with he | he
    · exact .inl (he ▸ hw)
    · rw [he, List.filterMap_append, hw, List.nil_append]
      cases hm : unmarshal line with
      | none => exact .inl (by simp [hm])
      | some req => exact .inr ⟨req, by simp [hm]⟩

/-- What the reader does by itself gives the main loop no more requests. -/
theorem readerMoves_waiting_or (h : ReaderMoves unmarshal s s') :
    s'.waiting unmarshal = s.waiting unmarshal ∨ s'.waiting unmarshal = [] := by
  rcases readerMoves_cases h with ⟨n, hr, hb, -, rfl⟩ | ⟨-, -, -, rfl⟩ |
    ⟨line, rest, hr, hb, rfl⟩ | ⟨-, rfl⟩
  · exact .inl (by simp [State.waiting, hr, hb])
  · exact .inr rfl
  · exact .inl (waiting_scanToken hr hb)
  · exact .inr rfl

theorem NoneBehind.readerMoves (h : NoneBehind unmarshal s) (hmove : ReaderMoves unmarshal s s') :
    NoneBehind unmarshal s' := by
  rcases readerMoves_waiting_or hmove with hw | hw
  · rw [NoneBehind, hw, (readerMoves_frame hmove).1]
    exact h
  · exact .inl hw

theorem NoneBehind.step {a : Action} (h : NoneBehind unmarshal s) (ha : LockStep unmarshal s a)
    (hs : step unmarshal s a = some s') : NoneBehind unmarshal s' := by
  cases a with
  | send line =>
    simp only [ConnectionTeardown.step] at hs
    split_ifs at hs
    cases hs
    exact waiting_send ha.1 ha.2 line
  | close =>
    simp only [ConnectionTeardown.step] at hs
    split_ifs at hs
    cases hs
    exact h
  | read n => exact h.readerMoves ⟨.read n, trivial, hs⟩
  | readFails => exact h.readerMoves ⟨.readFails, trivial, hs⟩
  | scan => exact h.readerMoves ⟨.scan, trivial, hs⟩
  | cancel => exact h.readerMoves ⟨.cancel, trivial, hs⟩
  | take =>
    cases hr : s.reader <;> cases hl : s.loop <;>
      simp only [ConnectionTeardown.step, hr, hl, reduceCtorEq] at hs
    cases hs
    left
    rcases h with h | ⟨-, req', h⟩
    · simp [State.waiting, hr] at h
    · simp only [State.waiting, hr] at h
      exact (List.cons.inj h).2
  | finishHandler | reply | replyFails =>
    cases hl : s.loop <;> simp only [ConnectionTeardown.step, hl, reduceCtorEq] at hs
    cases hs
    exact .inl (h.waiting_nil (by simp [hl]))
  | finish =>
    cases hr : s.reader <;> cases hl : s.loop <;>
      simp only [ConnectionTeardown.step, hr, hl, reduceCtorEq] at hs
    all_goals
      cases hs
      exact .inl (by simp [State.waiting])

/-- A connection whose client waits for each answer tears down in every run. -/
theorem along_careful {actions : List Action}
    (h : Along (step unmarshal) (LockStep unmarshal) .start actions) :
    Along (step unmarshal) (Careful unmarshal) .start actions :=
  h.imp (fun _ _ _ hn ha hs => NoneBehind.step hn ha hs) (fun _ _ hn _ => NoneBehind.careful hn)
    (.inl rfl)

/-- Two requests at once, the first of which cannot be answered. -/
theorem always_tearsDown_fails : ¬ ∀ (unmarshal : Bytes → Option Request) (actions : List Action),
    Always (step unmarshal) (TearsDown unmarshal) .start actions := by
  intro h
  have hrun := h (fun _ => some ⟨1, "ListDir", none⟩)
    [.send [], .send [], .read 2, .scan, .take, .scan, .finishHandler, .replyFails]
  exact (hrun.last rfl).notStranded rfl ((stranded_iff rfl).mpr ⟨_, rfl⟩)

end Teardown

end ProtonDrive.ConnectionTeardown
