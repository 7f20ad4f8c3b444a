import ProtonDrive.PartialRuns
import Mathlib.Data.Int.Notation
import Mathlib.Data.List.Basic
import Mathlib.Tactic.SplitIfs

/-!
# The window of the setup tool

`SetupWindow` of `proton-drive-setup`: a sign-in starts a thread that spawns a helper and asks it to
log in; what comes of it is queued for the main loop, which shows an error, asks for a verification
by code or by puzzle, or stores the credentials. The threads share the fields of the window with the
main loop, which goes through a callback in several steps while they go on.
-/

namespace ProtonDrive.SetupWindow
open PartialRuns

section Data

inductive Page
  | login
  | spinner
  deriving DecidableEq, Repr

inductive Field
  | uid
  | refreshToken
  | saltedPassphrase
  deriving DecidableEq, Repr

/-- The result of a login. `account` is the name that was logged in; no function reads it. -/
structure Credentials where
  uid : String
  refreshToken : String
  saltedPassphrase : String
  account : String
  deriving DecidableEq, Repr

inductive Response
  | error (code : Option ℤ) (message hvToken : Option String)
  | result (uid refreshToken saltedPassphrase : String)
  deriving DecidableEq, Repr

inductive Method
  | auth
  | authWithHV (hvToken type : String)
  deriving DecidableEq, Repr

/-- Where a thread is. The arguments of a call are read from the window one after the other. -/
inductive Thread
  | findHelper
  | nameSocket
  | spawn
  | assign (proc : ℕ)
  | await (tries : ℕ)
  | readSock (m : Method)
  | readUsername (m : Method) (sock : Option ℕ)
  | readPassword (m : Method) (sock : Option ℕ) (username : String)
  | rpcCall (m : Method) (sock : Option ℕ) (username password : String)
  | sendCode (dialog : ℕ)
  | prepareCaptcha (captchaToken : String)
  | solveCaptcha (captchaToken subToken initToken : String)

/-- What is queued with `GLib.idle_add`. -/
inductive Callback
  | showErr (msg : String)
  | showHV (hvToken : String)
  | storeAndFinish (result : Credentials)
  | showCaptchaUI (captchaToken subToken initToken : String)
  | showSpinner
  | codeSent (dialog : ℕ)
  | sendFailed (dialog : ℕ) (msg : String)

/-- What follows the `_cleanup` of a callback. -/
inductive Ending
  | failed (msg : String)
  | finished
  deriving DecidableEq, Repr

/-- Where the main loop is: between callbacks, in the stores of `_store_and_finish`, or in
`_cleanup` and what follows it. -/
inductive Main
  | ready
  | storing (u : String) (result : Credentials) (left : List Field)
  | checking (k : Ending)
  | terminating (k : Ending)
  | clearing (k : Ending)
  | unlinking (k : Ending)
  | ending (k : Ending)
  | quit
  deriving DecidableEq, Repr

structure Dialog where
  id : ℕ
  hvToken : String
  codeSent : Bool

structure Puzzle where
  id : ℕ
  captchaToken : String
  subToken : String
  initToken : String

/-- The fields of the window, its threads and queue, the open dialogs and puzzles, the helpers that
run, and what was stored and announced. `fresh` numbers sockets, processes and windows. -/
structure Window where
  proc : Option ℕ
  sock : Option ℕ
  username : String
  password : String
  captchaWin : Option ℕ
  page : Page
  err : Option String
  main : Main
  threads : List Thread
  idle : List Callback
  dialogs : List Dialog
  puzzles : List Puzzle
  running : List ℕ
  keyring : List (String × Field × Credentials)
  announced : List String
  fresh : ℕ

def Window.init : Window :=
  ⟨none, none, "", "", none, .login, none, .ready, [], [], [], [], [], [], [], 0⟩

/-- How a step of a thread or of the main loop comes out. -/
inductive Outcome
  | done
  | missing
  | raises (text : String)
  | puzzle (subToken initToken : String)
  | response (r : Response)
  deriving DecidableEq, Repr

inductive Act
  | signIn (email password : String)
  | sendCode (dialog : ℕ)
  | verify (dialog : ℕ) (code : String)
  | useCaptcha (dialog : ℕ)
  | dismiss (dialog : ℕ)
  | solve (puzzle : ℕ)
  | closePuzzle (puzzle : ℕ)
  | thread (i : ℕ) (o : Outcome)
  | main (o : Outcome)
  | exit (proc : ℕ)

end Data

section Threads

/-- `build_hv_token`. -/
def buildHvToken (captchaToken subToken provedToken : String) : String :=
  captchaToken ++ ":" ++ subToken ++ provedToken

def Window.idleAdd (w : Window) (cb : Callback) : Window := { w with idle := w.idle ++ [cb] }

/-- `_handle_auth_resp`, for a call that logged in this name. -/
def handleAuthResp (username : String) : Response → Callback
  | .error code message hvToken =>
    if code = some (-32004) then .showHV (hvToken.getD "")
    else .showErr (message.getD "Authentication failed.")
  | .result uid refreshToken saltedPassphrase =>
    .storeAndFinish ⟨uid, refreshToken, saltedPassphrase, username⟩

def helperNotFound : String := "proton-drive-helper not found.\n" ++
  "Build it: cd helper && go build -o proton-drive-helper ."

/-- What a thread queues when its step raises, if it can; nothing catches what `do_send` raises. -/
def Thread.caught (text : String) : Thread → Option (List Callback)
  | .assign _ | .readSock _ | .readUsername _ _ | .readPassword _ _ _ => none
  | .sendCode _ => some []
  | .prepareCaptcha _ => some [.showErr ("Could not load CAPTCHA: " ++ text)]
  | .solveCaptcha _ _ _ => some [.showErr ("CAPTCHA validation failed: " ++ text)]
  | _ => some [.showErr text]

/-- One step of a thread: the window, and the thread again unless it has ended. -/
def Thread.advance (w : Window) : Thread → Outcome → Option (Window × Option Thread)
  | t, .raises text => (t.caught text).map fun cbs => ({ w with idle := w.idle ++ cbs }, none)
  | .findHelper, .done => some (w, some .nameSocket)
  | .findHelper, .missing => some (w.idleAdd (.showErr helperNotFound), none)
  | .nameSocket, .done => some ({ w with sock := some w.fresh, fresh := w.fresh + 1 }, some .spawn)
  | .spawn, .done =>
    some ({ w with running := w.fresh :: w.running, fresh := w.fresh + 1 }, some (.assign w.fresh))
  | .assign p, .done => some ({ w with proc := some p }, some (.await 50))
  | .await 0, .done => some (w.idleAdd (.showErr "Helper failed to start."), none)
  | .await (_ + 1), .done => some (w, some (.readSock .auth))
  | .await (n + 1), .missing => some (w, some (.await n))
  | .readSock m, .done => some (w, some (.readUsername m w.sock))
  | .readUsername m sock, .done => some (w, some (.readPassword m sock w.username))
  | .readPassword m sock u, .done => some (w, some (.rpcCall m sock u w.password))
  | .rpcCall _ _ u _, .response r => some (w.idleAdd (handleAuthResp u r), none)
  | .sendCode d, .response (.error _ message _) =>
    some (w.idleAdd (.sendFailed d (message.getD "Failed to send code.")), none)
  | .sendCode d, .response (.result _ _ _) => some (w.idleAdd (.codeSent d), none)
  | .prepareCaptcha captchaToken, .puzzle subToken initToken =>
    some (w.idleAdd (.showCaptchaUI captchaToken subToken initToken), none)
  | .solveCaptcha captchaToken subToken initToken, .done =>
    some (w.idleAdd .showSpinner, some (.readSock
      (.authWithHV (buildHvToken captchaToken subToken initToken) "captcha")))
  | _, _ => none

end Threads

section MainLoop

/-- The beginning of `_cleanup`: the puzzle is closed. -/
def Window.cleanup (w : Window) (k : Ending) : Window :=
  { w with
    puzzles := w.puzzles.filter fun z => some z.id ≠ w.captchaWin
    captchaWin := none
    main := .checking k }

/-- The main loop takes a callback. Showing a puzzle fails where its image cannot be read. -/
def Callback.start (w : Window) (o : Outcome) : Callback → Window
  | .showErr msg => w.cleanup (.failed msg)
  | .showHV hvToken => { w with
      page := .login
      dialogs := w.dialogs ++ [⟨w.fresh, hvToken, false⟩]
      fresh := w.fresh + 1 }
  | .storeAndFinish result => { w with
      main := .storing w.username result [.uid, .refreshToken, .saltedPassphrase] }
  | .showCaptchaUI captchaToken subToken initToken =>
    if o = .done then { w with
      puzzles := w.puzzles ++ [⟨w.fresh, captchaToken, subToken, initToken⟩]
      captchaWin := some w.fresh
      fresh := w.fresh + 1 }
    else w
  | .showSpinner => { w with page := .spinner }
  | .codeSent d => { w with
      dialogs := w.dialogs.map fun dlg =>
        if dlg.id = d then { dlg with codeSent := true } else dlg }
  | .sendFailed _ _ => w

/-- One step of the main loop. -/
def Window.mainStep (w : Window) (o : Outcome) : Option Window :=
  match w.main with
  | .ready =>
    match w.idle with
    | [] => none
    | cb :: rest => some (cb.start { w with idle := rest } o)
  | .storing u result (field :: left) =>
    match o with
    | .raises text => some (w.cleanup (.failed ("Failed to store credentials: " ++ text)))
    | _ => some { w with
        keyring := w.keyring ++ [(u, field, result)]
        main := .storing u result left }
  | .storing u _ [] => some ({ w with announced := w.announced ++ [u] }.cleanup .finished)
  | .checking k =>
    some { w with main := if w.proc.isSome then .terminating k else .unlinking k }
  | .terminating k => some { w with
      running := w.running.filter fun p => some p ≠ w.proc
      main := .clearing k }
  | .clearing k => some { w with proc := none, main := .unlinking k }
  | .unlinking k =>
    match o with
    | .done => some { w with sock := none, main := .ending k }
    -- the file may be gone between the test and the removal
    | .raises _ => some { w with main := .ready }
    | _ => some { w with main := .ending k }
  | .ending (.failed msg) => some { w with err := some msg, page := .login, main := .ready }
  | .ending .finished => some { w with main := .quit }
  | .quit => none

end MainLoop

section Machine

/-- `_on_sign_in`, with the address stripped. -/
def Window.signIn (w : Window) (email password : String) : Window :=
  if email = "" ∨ password = "" then w.cleanup (.failed "Email and password are required.")
  else { w with
    username := email
    password := password
    err := none
    page := .spinner
    threads := w.threads ++ [.findHelper] }

/-- What the user does while the main loop is between callbacks. -/
def Window.event (w : Window) : Act → Option Window
  | .signIn email password => if w.page = .login then some (w.signIn email password) else none
  | .sendCode d => (w.dialogs.find? (·.id = d)).map fun _ =>
      { w with threads := w.threads ++ [.sendCode d] }
  | .verify d code => (w.dialogs.find? (·.id = d)).bind fun dlg =>
      if dlg.codeSent = true ∧ code ≠ "" then
        some { w with
          dialogs := w.dialogs.filter (·.id ≠ d)
          idle := w.idle ++ [.showSpinner]
          threads := w.threads ++ [.readSock (.authWithHV code "email")] }
      else none
  | .useCaptcha d => (w.dialogs.find? (·.id = d)).map fun dlg => { w with
      dialogs := w.dialogs.filter (·.id ≠ d)
      threads := w.threads ++ [.prepareCaptcha dlg.hvToken] }
  | .dismiss d => some { w with dialogs := w.dialogs.filter (·.id ≠ d) }
  | .solve z => (w.puzzles.find? (·.id = z)).map fun puzzle => { w with
      puzzles := w.puzzles.filter (·.id ≠ z)
      captchaWin := none
      threads := w.threads ++
        [.solveCaptcha puzzle.captchaToken puzzle.subToken puzzle.initToken] }
  | .closePuzzle z => some { w with puzzles := w.puzzles.filter (·.id ≠ z) }
  | _ => none

def Window.step (w : Window) : Act → Option Window
  | .thread i o =>
    if w.main = .quit then none
    else w.threads[i]?.bind fun t => (t.advance w o).map fun r =>
      { r.1 with threads := w.threads.take i ++ r.2.toList ++ w.threads.drop (i + 1) }
  | .main o => w.mainStep o
  | .exit p => some { w with running := w.running.filter (· ≠ p) }
  | a => if w.main = .ready then w.event a else none

end Machine

section Inversion

variable {w w' : Window} {t : Thread} {o : Outcome} {r : Option Thread}

/-- The threads on their way from a sign-in to the field of the window that holds the helper. -/
def Thread.Spawns : Thread → Prop
  | .findHelper | .nameSocket | .spawn | .assign _ => True
  | _ => False

/-- The threads that carry an attempt on. -/
def Thread.Carries : Thread → Prop
  | .sendCode _ => False
  | _ => True

/-- The callbacks that carry an attempt on, or end it. -/
def Callback.Decides : Callback → Prop
  | .showErr _ | .showHV _ | .storeAndFinish _ | .showCaptchaUI _ _ _ => True
  | _ => False

/-- The name that a thread has read from the window. -/
def Thread.asks : Thread → Option String
  | .readPassword _ _ u | .rpcCall _ _ u _ => some u
  | _ => none

/-- What one step of a thread can do to the window and to itself. -/
structure Advances (w : Window) (t : Thread) (w' : Window) (r : Option Thread)
    (cbs : List Callback) : Prop where
  window : w' = { w with
    sock := w'.sock
    proc := w'.proc
    running := w'.running
    fresh := w'.fresh
    idle := w.idle ++ cbs }
  proc : w'.proc = w.proc ∨ ∃ p, t = .assign p ∧ w'.proc = some p
  running : w'.running = w.running ∨
    t = .spawn ∧ w'.running = w.fresh :: w.running ∧ r = some (.assign w.fresh)
  assigned : ∀ p, t = .assign p → w'.proc = some p ∧ cbs = []
  spawns : ∀ t', r = some t' → t'.Spawns → t.Spawns ∧ cbs = [] ∧ w'.proc = w.proc
  carries : t.Carries → (∃ t', r = some t' ∧ t'.Carries) ∨ ∃ cb ∈ cbs, cb.Decides
  asks : ∀ t' u, r = some t' → t'.asks = some u → u = w.username ∨ t.asks = some u
  stores : ∀ c, .storeAndFinish c ∈ cbs → t.asks = some c.account

/-- A step that queues no callback. -/
theorem Advances.silent (hw : w' = { w with
      sock := w'.sock, proc := w'.proc, running := w'.running, fresh := w'.fresh })
    (hproc : w'.proc = w.proc ∨ ∃ p, t = .assign p ∧ w'.proc = some p)
    (hrunning : w'.running = w.running ∨
      t = .spawn ∧ w'.running = w.fresh :: w.running ∧ r = some (.assign w.fresh))
    (hassigned : ∀ p, t = .assign p → w'.proc = some p)
    (hspawns : ∀ t', r = some t' → t'.Spawns → t.Spawns ∧ w'.proc = w.proc)
    (hcarries : t.Carries → ∃ t', r = some t' ∧ t'.Carries)
    (hasks : ∀ t' u, r = some t' → t'.asks = some u → u = w.username ∨ t.asks = some u) :
    Advances w t w' r [] where
  window := by rw [List.append_nil]; exact hw
  proc := hproc
  running := hrunning
  assigned p hp := ⟨hassigned p hp, rfl⟩
  spawns t' ht hs := ⟨(hspawns t' ht hs).1, rfl, (hspawns t' ht hs).2⟩
  carries h := .inl (hcarries h)
  asks := hasks
  stores c hc := absurd hc List.not_mem_nil

/-- A thread that ends with callbacks. -/
theorem Advances.last {cbs : List Callback} (ha : ∀ p, t ≠ .assign p)
    (hcarries : t.Carries → ∃ cb ∈ cbs, cb.Decides)
    (hstores : ∀ c, .storeAndFinish c ∈ cbs → t.asks = some c.account) :
    Advances w t { w with idle := w.idle ++ cbs } none cbs where
  window := rfl
  proc := .inl rfl
  running := .inl rfl
  assigned p hp := absurd hp (ha p)
  spawns t' ht := by cases ht
  carries h := .inr (hcarries h)
  asks t' u ht := by cases ht
  stores := hstores

end Inversion

section Helpers

variable {w w' : Window} {o : Outcome} {a : Act}

/-- Nothing goes on but this thread. -/
structure Alone (w : Window) (t : Thread) : Prop where
  threads : w.threads = [t]
  idle : w.idle = []
  dialogs : w.dialogs = []
  puzzles : w.puzzles = []
  main : w.main = .ready
  page : w.page = .spinner
  proc : w.proc = none

/-- Every helper that runs is held by the window, or about to be. -/
structure Helpers (w : Window) : Prop where
  held : ∀ p ∈ w.running, w.proc = some p ∨ .assign p ∈ w.threads
  alone : ∀ t ∈ w.threads, t.Spawns → Alone w t
  cleared : ∀ k, w.main = .clearing k → ∀ p ∈ w.running, w.proc ≠ some p
  released : ∀ k, w.main = .unlinking k ∨ w.main = .ending k ∨ w.main = .quit → w.proc = none

/-- A sign-in with both fields filled is made only when nothing of an earlier attempt is left. -/
def Careful (w : Window) : Act → Prop
  | .signIn email password => email ≠ "" → password ≠ "" →
    w.threads = [] ∧ w.idle = [] ∧ w.dialogs = [] ∧ w.puzzles = [] ∧ w.proc = none
  | _ => True

theorem Helpers.held_of_calm (h : Helpers w) (hcalm : ∀ t ∈ w.threads, ¬t.Spawns) {p : ℕ}
    (hp : p ∈ w.running) : w.proc = some p :=
  (h.held p hp).resolve_right fun ht => hcalm _ ht trivial

/-- Without a thread on its way to the field, the helpers that run are in the field. -/
theorem Helpers.of_calm (hcalm : ∀ t ∈ w'.threads, ¬t.Spawns)
    (hheld : ∀ p ∈ w'.running, w'.proc = some p)
    (hcleared : ∀ k, w'.main = .clearing k → ∀ p ∈ w'.running, w'.proc ≠ some p)
    (hreleased : ∀ k, w'.main = .unlinking k ∨ w'.main = .ending k ∨ w'.main = .quit →
      w'.proc = none) : Helpers w' where
  held p hp := .inl (hheld p hp)
  alone t ht hs := absurd hs (hcalm t ht)
  cleared := hcleared
  released := hreleased

theorem Helpers.cleanup (h : Helpers w) (hcalm : ∀ t ∈ w.threads, ¬t.Spawns) (k : Ending) :
    Helpers (w.cleanup k) :=
  .of_calm hcalm (fun _ hp => h.held_of_calm hcalm hp) (by simp [Window.cleanup])
    (by simp [Window.cleanup])

end Helpers

section Names

variable {w w' : Window} {o : Outcome} {a : Act}

/-- What was logged in under a name, and what is about to be stored under it, is of that name. -/
structure Names (w : Window) : Prop where
  stored : ∀ e ∈ w.keyring, e.2.2.account = e.1
  storing : ∀ u c left, w.main = .storing u c left → c.account = u
  queued : ∀ c, .storeAndFinish c ∈ w.idle → c.account = w.username
  asks : ∀ t ∈ w.threads, ∀ u, t.asks = some u → u = w.username

theorem Names.cleanup (h : Names w) (k : Ending) : Names (w.cleanup k) :=
  ⟨h.stored, by simp [Window.cleanup], h.queued, h.asks⟩

end Names

section Carried

variable {w w' : Window} {o : Outcome} {a : Act}

end Carried

section Attempts

variable {w : Window} {acts : List Act}

/-- From a sign-in to the call of the helper, for the thread in this place. -/
def upToCall (i : ℕ) : List Act := List.replicate 8 (.thread i .done)

/-- The puzzle is solved and the call under way when somebody else signs in. -/
def overtaken : List Act :=
  .signIn "a@b.c" "secret" :: upToCall 0 ++
    [.thread 0 (.response (.error (some (-32004)) none (some "hv"))), .main .done, .useCaptcha 2,
      .thread 0 (.puzzle "sub" "init"), .main .done, .solve 3, .thread 0 .done, .thread 0 .done,
      .thread 0 .done, .thread 0 .done, .signIn "x@y.z" "other"] ++ upToCall 1 ++
    [.thread 0 (.response (.result "uid" "token" "passphrase")), .main .done, .main .done,
      .main .done]

/-- A careless sign-in: credentials of one account are stored under the name of another, and a
helper that no field holds goes on running. -/
theorem attempts_accounted_fails : ¬∀ (acts : List Act) (w : Window),
    acts.foldlM Window.step .init = some w →
    (∀ p ∈ w.running, w.proc = some p ∨ w.threads = [.assign p]) ∨
      ∀ u f c, (u, f, c) ∈ w.keyring → c.account = u := by
  have h : (overtaken.foldlM Window.step .init).map
      (fun w => (w.keyring, w.running, w.proc, w.threads.map fun t => t.asks.isSome)) =
        some ([("x@y.z", .uid, ⟨"uid", "token", "passphrase", "a@b.c"⟩)], [5, 1], some 5,
          [true]) := by
    decide
  obtain ⟨w, hrun, hw⟩ := Option.map_eq_some_iff.mp h
  simp only [Prod.mk.injEq] at hw
  obtain ⟨hkeyring, hrunning, hproc, hthreads⟩ := hw
  intro hall
  rcases hall overtaken w hrun with hheld | hnames
  · rcases hheld 1 (by simp [hrunning]) with hp | ht
    · simp [hproc] at hp
    · rw [ht] at hthreads
      simp [Thread.asks] at hthreads
  · have hname := hnames "x@y.z" .uid _ (by rw [hkeyring]; exact List.mem_singleton_self _)
    simp at hname

end Attempts

end ProtonDrive.SetupWindow
